/-
Storing the stash and loading it again.

`storeToFile` takes the length of a record from the first entry that the iteration of the hash table meets, and copies every
entry at its own length; `loadFromFile` is told a length. Payloads are padded when they are uploaded, so the stash of a run
may have payloads of several lengths: those that were put and are as long as they were put, and those that came back.

- `storeStash_past`: of two payloads of different lengths, the longer may be written past the end of the array.
- `roundTrips_iff`: **when a stash survives**: all payloads have the length that is passed, and the file fits an `int`.
- `reached_roundTrips_iff`: so it is after every run. `reached_ids`: the IDs of the stash are 64-bit numbers.
- `history_roundTrips_iff`: where every payload is as long as a block, only the size of the file matters.
-/
import PathOram.StashFiles
import PathOram.Guards
import PathOram.Restart
import PathOram.Batches

namespace PathOram

open Lib

/-- the same IDs, with the payloads as they were or padded with zeroes -/
structure Reloaded (stash loaded : Stash) : Prop where
  ids : ∀ k, k ∈ loaded ↔ k ∈ stash
  payloads : ∀ k d, stash.lookup k = some d → ∃ d', loaded.lookup k = some d' ∧ ZeroPadded d d'

/-- whatever is in the memory that is not written, and whatever the order of the hash table, the stash is stored and loaded -/
def RoundTrips (stash : Stash) (blockSize : ℤ) : Prop :=
  ∀ memory, Triple (fun st => st = stash) (remakeStash memory blockSize) (fun _ loaded => Reloaded stash loaded)
    (fun _ _ => False)

/-- all payloads have the length that is passed, and the size of their file is an `int` -/
def FitsFile (stash : Stash) (blockSize : ℤ) : Prop :=
  ∀ k d, stash.lookup k = some d → d.length = blockSize ∧ stash.size * (8 + d.length) < 2 ^ 31

/-! ## Payloads of several lengths -/

/-- a record that is longer than the first is written past the end of the array, if it is the last one -/
theorem copyRecords_past {recordSize : ℕ} (front : List Block) {last : Block} {i : ℕ} {buffer : Bytes}
    (h : buffer.length < recordSize * (i + front.length) + 8 + last.2.length) :
    copyRecords recordSize i (front ++ [last]) buffer = .error .writePastEnd := by
  induction front generalizing i buffer with
  | nil => exact if_pos h
  | cons record front ih =>
    rw [List.cons_append, copyRecords]
    split_ifs
    · rfl
    · refine ih ?_
      rw [length_patch, length_patch, Nat.add_right_comm i 1, Nat.add_assoc i]
      exact h

/-- **Two lengths in a stash.** In the order that starts with a shorter payload and ends with a longer one, storing the
stash writes past the end of the array. -/
theorem storeStash_past {stash : Stash} {a b : Block} (ha : stash.lookup a.1 = some a.2) (hb : stash.lookup b.1 = some b.2)
    (hlt : a.2.length < b.2.length) (memory : Memory) :
    ∃ w, ((storeStash memory).exec w stash).1 = .error .writePastEnd := by
  have hne : b ≠ a := by
    rintro rfl
    exact hlt.false
  obtain ⟨middle, horder⟩ : ∃ middle, (a :: (middle ++ [b])).Perm stash.toList := by
    have ha' : a ∈ stash.toList := UnorderedMap.mem_toList.2 ha
    have hb' : b ∈ stash.toList.erase a := (List.mem_erase_of_ne hne).2 (UnorderedMap.mem_toList.2 hb)
    refine ⟨(stash.toList.erase a).erase b, ?_⟩
    refine List.Perm.trans (List.Perm.cons a ?_) (List.perm_cons_erase ha').symm
    exact (List.perm_append_singleton b _).trans (List.perm_cons_erase hb').symm
  obtain ⟨k, hk⟩ := exists_arrange horder
  refine ⟨⟨fun _ => 0, fun _ => k⟩, ?_⟩
  have hpast : stashFile memory (a :: (middle ++ [b])) = .error .writePastEnd := by
    refine copyRecords_past (a :: middle) ?_
    have hsize : (middle ++ [b]).length = middle.length + 1 := List.length_append
    rw [(memory _).2, hsize, List.length_cons, Nat.zero_add, Nat.succ_mul, Nat.mul_comm]
    omega
  change (stashFile memory (arrange k stash.toList)) = _
  rw [hk, hpast]

/-- a stash with payloads of two lengths does not survive -/
theorem length_eq_of_roundTrips {stash : Stash} {blockSize : ℤ} (h : RoundTrips stash blockSize) {k k' : ℕ} {d d' : Bytes}
    (hd : stash.lookup k = some d) (hd' : stash.lookup k' = some d') : d.length = d'.length := by
  have hle : ∀ {k k' : ℕ} {d d' : Bytes}, stash.lookup k = some d → stash.lookup k' = some d' → d'.length ≤ d.length := by
    intro k k' d d' hd hd'
    by_contra hlt
    obtain ⟨w, hw⟩ := storeStash_past (a := (k, d)) (b := (k', d')) hd hd' (not_le.1 hlt)
      (fun n => ⟨List.replicate n 0, List.length_replicate⟩)
    have hfails := Triple.error (h _) rfl (Prog.exec_bind_error (Prog.exec_eq hw))
    exact hfails
  exact le_antisymm (hle hd' hd) (hle hd hd')

/-! ## Payloads of one length -/

-- programs are compared without computing what a conversion gives
attribute [local irreducible] toInt

/-- the payloads that are loaded are not longer than was asked for -/
theorem recordsOf_length_le {buffer : Bytes} {size : ℕ} {record : Block} (h : record ∈ recordsOf buffer size) :
    record.2.length ≤ size := by
  obtain ⟨i, -, rfl⟩ := List.mem_map.1 h
  exact List.length_take_le _ _

/-- loading a file gives no more blocks than the bytes that are taken have records, and no longer payloads -/
theorem loadStash_limits {file : Bytes} {size : ℕ} {w w' : World} {loaded : Stash}
    (h : (loadStash file size).exec w ∅ = (.ok (), w', loaded)) :
    loaded.size * (8 + size) ≤ bytesTaken file ∧ ∀ k d, loaded.lookup k = some d → d.length ≤ size := by
  rw [loadStash_exec] at h
  obtain rfl : UnorderedMap.emplaceAll ∅ (recordsOf (file.take (bytesTaken file)) size) = loaded :=
    congrArg (fun r => r.2.2) h
  constructor
  · have hcount : (UnorderedMap.emplaceAll (∅ : Stash) (recordsOf (file.take (bytesTaken file)) size)).size ≤
        bytesTaken file / (8 + size) := by
      rw [← UnorderedMap.card_keySet, UnorderedMap.keySet_emplaceAll]
      have hempty : UnorderedMap.keySet (∅ : Stash) = ∅ := rfl
      rw [hempty, Finset.empty_union]
      refine (List.toFinset_card_le _).trans ?_
      rw [List.length_map, recordsOf, List.length_map, List.length_range, List.length_take,
        Nat.min_eq_left (bytesTaken_le file)]
    exact (Nat.mul_le_mul_right _ hcount).trans (Nat.div_mul_le_self _ _)
  · intro k d hd
    rcases UnorderedMap.of_lookup_emplaceAll hd with hrecord | hempty
    · exact recordsOf_length_le hrecord
    · simp at hempty

/-- the size of a file that is taken as a whole is an `int` -/
theorem lt_of_bytesTaken {file : Bytes} (h : file.length ≤ bytesTaken file) : file.length < 2 ^ 31 := by
  by_contra hlarge
  have hle := toInt_le (not_lt.1 hlarge)
  rw [bytesTaken] at h
  omega

/-- **What the round trip of a stash needs** of the length that is passed and of the file -/
theorem fitsFile_of_roundTrips {stash : Stash} {blockSize : ℤ} {n : ℕ}
    (hfull : ∀ k d, stash.lookup k = some d → k < 2 ^ 64 ∧ d.length = n) (hsome : ∃ k, k ∈ stash)
    (h : RoundTrips stash blockSize) : n = blockSize ∧ stash.size * (8 + n) < 2 ^ 31 := by
  have hway := remakeStash_triple hfull (fun n => ⟨List.replicate n 0, List.length_replicate⟩) blockSize
    (Q := fun loaded => Reloaded stash loaded → n = blockSize ∧ stash.size * (8 + n) < 2 ^ 31) (E := fun _ => True) ?_
  · have hboth := (h _).and hway zeroWorld stash ⟨rfl, rfl⟩
    rcases hexec : (remakeStash (fun n => ⟨List.replicate n 0, List.length_replicate⟩) blockSize).exec zeroWorld stash with
      ⟨e | _, w, loaded⟩
    · rw [hexec] at hboth
      exact hboth.1.elim
    · rw [hexec] at hboth
      exact hboth.2 hboth.1
  · rintro records hperm w _ rfl
    obtain ⟨hrecords, -, hlen⟩ := records_of_perm hfull hperm
    have hfile := length_fileBytes fun r hr => (hrecords r hr).2.2
    rw [hlen] at hfile
    rcases hexec : (loadStash (fileBytes records) blockSize).exec w ∅ with ⟨e | _, w', loaded⟩
    · trivial
    · intro hloaded
      obtain ⟨k, hk⟩ := hsome
      obtain ⟨d, hd⟩ := UnorderedMap.mem_iff_lookup.1 hk
      obtain ⟨d', hd', zeroes, hpadded⟩ := hloaded.payloads k d hd
      rcases lt_or_ge blockSize 0 with hneg | hpos
      · -- with a negative size nothing is loaded
        have hnone := loadStash_negative hneg (fileBytes records) w ∅
        rw [hexec] at hnone
        obtain rfl : loaded = ∅ := hnone
        simp at hd'
      · obtain ⟨size, rfl⟩ := Int.eq_ofNat_of_zero_le hpos
        obtain ⟨hcount, hlength⟩ := loadStash_limits hexec
        have hkeys : loaded.size = stash.size := by
          rw [← UnorderedMap.card_keySet, ← UnorderedMap.card_keySet]
          congr 1
          ext k
          rw [UnorderedMap.mem_keySet, UnorderedMap.mem_keySet, hloaded.ids]
        have hblocks : 0 < stash.size := by
          rw [← UnorderedMap.card_keySet, Finset.card_pos]
          exact ⟨k, UnorderedMap.mem_keySet.2 hk⟩
        -- the records that are loaded are neither longer nor shorter than those that were stored
        have hge : n ≤ size := by
          have hsize := hlength k d' hd'
          rw [hpadded, List.length_append, (hfull k d hd).2] at hsize
          omega
        have hbytes : stash.size * (8 + size) ≤ stash.size * (8 + n) := by
          rw [hkeys] at hcount
          exact hcount.trans ((bytesTaken_le _).trans hfile.le)
        have hle : size ≤ n := by
          have := Nat.le_of_mul_le_mul_left hbytes hblocks
          omega
        obtain rfl : n = size := le_antisymm hge hle
        refine ⟨rfl, hfile ▸ lt_of_bytesTaken ?_⟩
        rw [hfile, ← hkeys]
        exact hcount

/-- **When a stash survives** storing and loading: every payload has the length that is passed, and the file of the records
fits an `int`. -/
theorem roundTrips_iff {stash : Stash} (hids : ∀ k ∈ stash, k < 2 ^ 64) (blockSize : ℤ) :
    RoundTrips stash blockSize ↔ FitsFile stash blockSize := by
  constructor
  · intro h k d hd
    refine fitsFile_of_roundTrips (fun k' d' hd' => ⟨?_, ?_⟩) ⟨k, UnorderedMap.mem_iff_lookup.2 ⟨d, hd⟩⟩ h
    · exact hids k' (UnorderedMap.mem_iff_lookup.2 ⟨d', hd'⟩)
    · exact length_eq_of_roundTrips h hd' hd
  · intro h memory
    by_cases hsome : ∃ k, k ∈ stash
    · obtain ⟨k, hk⟩ := hsome
      obtain ⟨d, hd⟩ := UnorderedMap.mem_iff_lookup.1 hk
      obtain ⟨hlen, hsmall⟩ := h k d hd
      have hfull : ∀ k' d', stash.lookup k' = some d' → k' < 2 ^ 64 ∧ d'.length = d.length := fun k' d' hd' =>
        ⟨hids k' (UnorderedMap.mem_iff_lookup.2 ⟨d', hd'⟩), by exact_mod_cast (h k' d' hd').1.trans hlen.symm⟩
      have hpos : 0 < stash.size := by
        rw [← UnorderedMap.card_keySet, Finset.card_pos]
        exact ⟨k, UnorderedMap.mem_keySet.2 hk⟩
      have hint : toInt d.length = blockSize := by
        have := Nat.le_mul_of_pos_left (8 + d.length) hpos
        rw [toInt_of_lt (by omega), hlen]
      refine (hint ▸ remakeStash_keeps hfull memory hsmall).post fun _ loaded hsame => ⟨fun k => ?_, fun k d hd => ?_⟩
      · rw [UnorderedMap.mem_iff_lookup, UnorderedMap.mem_iff_lookup, hsame]
      · exact ⟨d, hsame k ▸ hd, ZeroPadded.refl d⟩
    · -- the file of an empty stash is empty
      have hempty : stash = ∅ := AList.ext (List.eq_nil_iff_forall_not_mem.2 fun e he =>
        hsome ⟨e.1, AList.mem_keys.2 (List.mem_map_of_mem he)⟩)
      subst hempty
      have hnone : ∀ k d, (∅ : Stash).lookup k = some d → k < 2 ^ 64 ∧ d.length = 0 := fun k d hd => by simp at hd
      apply remakeStash_triple hnone memory (E := fun _ => False) blockSize
      intro records hperm
      rw [List.perm_nil.1 hperm]
      have hzero : toInt (fileBytes []).length = 0 := toInt_of_lt (n := 0) (by norm_num)
      unfold loadStash
      refine Triple.ite (fun hpos => absurd hpos (by rw [hzero]; exact lt_irrefl 0)) fun _ => Triple.pure ?_
      rintro _ rfl
      exact ⟨fun _ => Iff.rfl, fun k d hd => by simp at hd⟩

/-! ## The stash of a run -/

/-- the IDs that a bucket decodes to are 64-bit numbers, whatever the bytes -/
theorem StorageAdapter.get_ids {β : Type} (S : StorageAdapter β) (locations : List ℕ) :
    Triple (fun _ => True) (S.get locations) (fun blocks _ => ∀ x ∈ blocks, x.1 < 2 ^ 64) (fun _ _ => True) := by
  have hbucket : ∀ {raw : Bytes} {b : Bucket}, S.decodeBucket raw = .ok b → ∀ x ∈ b, x.1 < 2 ^ 64 := by
    intro raw b h
    unfold decodeBucket at h
    cases hd : encrypt S.crypto S.key (raw.take aesBlockSize) (raw.drop aesBlockSize) [] .decrypt with
    | error e =>
      rw [hd] at h
      cases h
    | ok decrypted =>
      rw [hd] at h
      cases h
      intro x hx
      obtain ⟨i, -, rfl⟩ := List.mem_map.1 hx
      refine (leNumber_lt _).trans_le ?_
      rw [show 2 ^ 64 = 256 ^ 8 by norm_num]
      exact Nat.pow_le_pow_right (by norm_num) (List.length_take_le _ _)
  have hbuckets : ∀ {raws : List Bytes} {buckets : List Bucket}, raws.mapM S.decodeBucket = .ok buckets →
      ∀ x ∈ buckets.flatten, x.1 < 2 ^ 64 := by
    intro raws buckets h x hx
    obtain ⟨b, hb, hx⟩ := List.mem_flatten.1 hx
    obtain ⟨raw, -, hraw⟩ := exists_of_mem_right (of_mapM_decodeBucket h) hb
    exact hbucket hraw x hx
  unfold get
  apply (Triple.trivial _ _).bind
  intro _
  apply (Triple.trivial _ _).bind
  intro _
  apply (Triple.trivial _ _).bind
  intro raws
  refine Triple.bind (Q := fun buckets _ => raws.mapM S.decodeBucket = .ok buckets)
    (Triple.ofExcept (fun _ _ hb _ => hb) fun _ _ _ _ => trivial) fun buckets => ?_
  exact Triple.pure fun _ hb => hbuckets hb

section Runs

variable {β μ : Type} {O : Oram β μ}

/-- all IDs are 64-bit numbers -/
def idGuard : Guard β μ where
  location _ := True
  block x := x.1 < 2 ^ 64
  slot x := x.1 < 2 ^ 64
  request id := id < 2 ^ 64
  storage _ := True
  map _ := True
  throws _ := True
  survives _ := True

theorem idGuard_laws (O : Oram β μ) : (idGuard : Guard β μ).Laws O where
  get locations _ _ := (O.storage.get_ids locations).conseq (fun _ ht => ht) (fun _ _ ht => ⟨⟨ht, fun _ _ => trivial⟩, trivial⟩)
    fun _ _ _ => ⟨trivial, fun _ => trivial⟩
  set _ _ := (Triple.trivial _ _).conseq (fun _ ht => ht) (fun _ _ ht => ht) fun _ _ _ => ⟨trivial, fun _ => trivial⟩
  position _ _ := (Triple.trivial _ _).conseq (fun _ ht => ht) (fun _ _ _ => ⟨fun _ _ => trivial, trivial⟩)
    fun _ _ _ => ⟨trivial, fun _ => trivial⟩
  entry _ _ := (Triple.trivial _ _).conseq (fun _ ht => ht) (fun _ _ ht => ht) fun _ _ _ => ⟨trivial, fun _ => trivial⟩
  remap _ _ _ _ := (Triple.trivial _ _).conseq (fun _ ht => ht) (fun _ _ ht => ht) fun _ _ _ => ⟨trivial, fun _ => trivial⟩
  block_of_slot _ hx _ := hx
  slot_of_block _ hx := hx
  dummy x hid _ := by
    change x.1 < 2 ^ 64
    rw [hid]
    norm_num [ulongMax]
  padded _ hx := hx
  overCapacity _ := trivial
  tooManyRequests _ _ := trivial
  diverges := trivial

/-- the construction leaves the stash and the cache empty -/
theorem construct_fresh : Triple Fresh O.construct (fun _ => Fresh) (fun _ => Fresh) := by
  have hmap : ∀ {α : Type} (m : Run μ α), Triple Fresh (Oram.onMap m : Run (OramState β μ) α) (fun _ => Fresh) (fun _ => Fresh) :=
    fun m => Triple.zoom_keeps (OramState.mapLens β μ) (fun _ _ hs => ⟨hs.stash, hs.cache⟩) m
  unfold Oram.construct
  apply (onStorage_keeps (fun _ _ hs => ⟨hs.stash, hs.cache⟩) _).bind
  intro _
  apply Triple.forM (fun _ => Fresh)
  intro i _ _
  exact Triple.bind (Q := fun _ => Fresh) (randBytes_triple.bind fun _ => Triple.pure fun _ hs => hs) fun leaf => hmap _

/-- **The IDs of the stash of a run** are 64-bit numbers, whatever the storage returns. -/
theorem reached_ids {s₀ s₁ s : OramState β μ} {w₀ w₁ w : World} (hfresh : Fresh s₀)
    (hconstruct : O.construct.exec w₀ s₀ = (.ok (), w₁, s₁)) {calls : List Call}
    (hcalls : ∀ call ∈ calls, ∀ op ∈ call.ops, op.block < 2 ^ 64) {outcomes : List (Except Exception Reply)}
    (hrun : (O.attempts calls).exec w₁ s₁ = (.ok outcomes, w, s)) : ∀ k ∈ s.stash, k < 2 ^ 64 := by
  have hempty := construct_fresh.ok hfresh hconstruct
  have hholds : (idGuard : Guard β μ).Holds s₁ := by
    refine ⟨trivial, trivial, fun k d hd => ?_, fun _ _ => trivial, fun ℓ b hb => ?_⟩
    · rw [hempty.stash] at hd
      simp at hd
    · rw [hempty.cache] at hb
      simp at hb
  have hallows : ∀ call ∈ calls, ∀ op ∈ call.ops, (idGuard : Guard β μ).Allows op := fun call hcall op hop =>
    ⟨hcalls call hcall op hop, fun _ => hcalls call hcall op hop⟩
  have hafter := ((idGuard_laws O).attempts (fun _ => trivial) hallows (E := fun _ _ => True)).ok hholds hrun
  intro k hk
  obtain ⟨d, hd⟩ := UnorderedMap.mem_iff_lookup.1 hk
  exact hafter.2.stash k d hd

/-- **The stash that a run leaves survives storing and loading exactly if its payloads have the length that is passed and its
file fits an `int`.** The run is any sequence of calls after the construction of an ORAM, over any storage and any map,
whatever the outcomes. -/
theorem reached_roundTrips_iff {s₀ s₁ s : OramState β μ} {w₀ w₁ w : World} (hfresh : Fresh s₀)
    (hconstruct : O.construct.exec w₀ s₀ = (.ok (), w₁, s₁)) {calls : List Call}
    (hcalls : ∀ call ∈ calls, ∀ op ∈ call.ops, op.block < 2 ^ 64) {outcomes : List (Except Exception Reply)}
    (hrun : (O.attempts calls).exec w₁ s₁ = (.ok outcomes, w, s)) (blockSize : ℤ) :
    RoundTrips s.stash blockSize ↔ FitsFile s.stash blockSize :=
  roundTrips_iff (reached_ids hfresh hconstruct hcalls hrun) blockSize

/-- a put and another on the tiny ORAM: the first block came back and is padded -/
theorem reached_roundTrips_tiny : ∃ s, Reached (inMemoryOram tinyStorage plainCrypto 2 6 1 4) s ∧ 0 ∈ s.stash ∧
    RoundTrips s.stash 32 := by
  set O := inMemoryOram tinyStorage plainCrypto 2 6 1 4 with hO
  set built := O.construct.exec zeroWorld (zeroState tinyStorage 2) with hbuilt
  set called := (O.attempts [.put 0 [1], .put 1 [2]]).exec built.2.1 built.2.2 with hcalled
  have hconstruct : built.1 = .ok () := by
    rw [hbuilt, hO]
    decide +kernel
  have houtcomes : called.1 = .ok [.ok .done, .ok .done] := by
    rw [hcalled, hbuilt, hO]
    decide +kernel
  have hstash : ∀ e ∈ called.2.2.stash.toList, e.2.length = 32 ∧ called.2.2.stash.size * (8 + e.2.length) < 2 ^ 31 := by
    rw [hcalled, hbuilt, hO]
    decide +kernel
  have hmem : 0 ∈ called.2.2.stash := by
    rw [hcalled, hbuilt, hO]
    decide +kernel
  clear_value called built
  have hexec : O.construct.exec zeroWorld (zeroState tinyStorage 2) = (.ok (), built.2.1, built.2.2) :=
    hbuilt.symm.trans (Prod.ext hconstruct rfl)
  have hrun : (O.attempts [.put 0 [1], .put 1 [2]]).exec built.2.1 built.2.2 =
      (.ok [.ok .done, .ok .done], called.2.1, called.2.2) := hcalled.symm.trans (Prod.ext houtcomes rfl)
  refine ⟨called.2.2, ⟨_, _, _, _, _, _, _, zeroState_fresh tinyStorage 2, hexec, hrun⟩, hmem, ?_⟩
  refine (reached_roundTrips_iff (zeroState_fresh tinyStorage 2) hexec ?_ hrun 32).2 fun k d hd => ?_
  · intro call hcall op hop
    rcases List.mem_cons.1 hcall with rfl | hcall
    · rw [List.mem_singleton.1 hop]
      norm_num
    · rw [List.mem_singleton.1 hcall] at hop
      rw [List.mem_singleton.1 hop]
      norm_num
  · obtain ⟨hlen, hsmall⟩ := hstash (k, d) (UnorderedMap.mem_toList.2 hd)
    exact ⟨by exact_mod_cast hlen, hsmall⟩

/-- **Two lengths in one stash.** On the small ORAM, whose blocks have 32 bytes, four puts of one byte leave one payload that
came back and is padded and one that is as short as it was put. No length that is passed brings both back. -/
theorem stash_lost : ∃ w s, (smallOram.session [.put 0 [1], .put 1 [2], .put 2 [3], .put 3 [4]]).exec
      ⟨fun _ => 0, fun _ => 3⟩ (zeroState smallStorage 4) = (.ok [.done, .done, .done, .done], w, s) ∧
    s.stash.lookup 0 = some (1 :: List.replicate 31 0) ∧ s.stash.lookup 3 = some [4] ∧
    ∀ blockSize, ¬ RoundTrips s.stash blockSize := by
  set called := (smallOram.session [.put 0 [1], .put 1 [2], .put 2 [3], .put 3 [4]]).exec ⟨fun _ => 0, fun _ => 3⟩
    (zeroState smallStorage 4) with hcalled
  have hreplies : called.1 = .ok [.done, .done, .done, .done] := by
    rw [hcalled]
    decide +kernel
  have hpadded : called.2.2.stash.lookup 0 = some (1 :: List.replicate 31 0) := by
    rw [hcalled]
    decide +kernel
  have hshort : called.2.2.stash.lookup 3 = some [4] := by
    rw [hcalled]
    decide +kernel
  clear_value called
  refine ⟨called.2.1, called.2.2, Prod.ext hreplies rfl, hpadded, hshort, fun blockSize h => ?_⟩
  have hlengths := length_eq_of_roundTrips h hpadded hshort
  simp at hlengths

end Runs

/-- **Payloads as long as a block.** After a construction, a load and calls that return, with payloads of that length, the
stash survives if it is empty or its file fits an `int`. -/
theorem history_roundTrips_iff {β : Type} {mapCapacity : ℕ} {O : Oram β (PositionArray mapCapacity)}
    (L : LawfulBackend O.storage.backend O.storage.capacity O.storage.blockSize)
    (hmap : O.map = inMemoryPositionMap mapCapacity) (hdata : O.dataSize = O.storage.userBlockSize)
    (hc : O.storage.crypto.Lawful) {initial : Option (List Block)} {calls : List Call}
    (hfull : FullHistory O.storage.userBlockSize initial calls) {s₀ s : OramState β (PositionArray mapCapacity)}
    {w₀ w : World} (hfresh : Fresh s₀) (hleaves : ∀ leaf ∈ s₀.map, leaf < 2 ^ 64) {replies : List Reply}
    (hrun : (O.history initial calls).exec w₀ s₀ = (.ok replies, w, s)) :
    RoundTrips s.stash O.storage.userBlockSize ↔
      s.stash.size = 0 ∨ s.stash.size * (8 + O.storage.userBlockSize) < 2 ^ 31 := by
  obtain ⟨-, hs⟩ := (history_payloads (L := L) hmap hdata hc hfull).ok ⟨hfresh, hleaves⟩ hrun
  have hids : ∀ k ∈ s.stash, k < 2 ^ 64 := fun k hk => by
    obtain ⟨d, hd⟩ := UnorderedMap.mem_iff_lookup.1 hk
    exact (hs.stash k d hd).1
  rw [roundTrips_iff hids]
  constructor
  · intro h
    rcases Nat.eq_zero_or_pos s.stash.size with hzero | hpos
    · exact Or.inl hzero
    · rw [← UnorderedMap.card_keySet] at hpos
      obtain ⟨k, hk⟩ := Finset.card_pos.1 hpos
      obtain ⟨d, hd⟩ := UnorderedMap.mem_iff_lookup.1 (UnorderedMap.mem_keySet.1 hk)
      have hsmall := (h k d hd).2
      rw [(hs.stash k d hd).2] at hsmall
      exact Or.inr hsmall
  · intro h k d hd
    have hlen : d.length = O.storage.userBlockSize := (hs.stash k d hd).2
    rw [hlen]
    refine ⟨rfl, h.resolve_left fun hzero => ?_⟩
    rw [← UnorderedMap.card_keySet, Finset.card_eq_zero] at hzero
    have hmem := UnorderedMap.mem_keySet.2 (UnorderedMap.mem_iff_lookup.2 ⟨d, hd⟩)
    rw [hzero] at hmem
    exact Finset.notMem_empty k hmem

end PathOram
