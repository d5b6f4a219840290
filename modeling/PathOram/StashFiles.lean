/-
Loading a stash file, whatever is in it.

`loadFromFile` keeps the size of the file in an `int`, takes as many bytes, and reads records from them until it is past
their end; the last record may reach past it. `recordsOf` are the whole records of a buffer.

- `loadStash_exec`: **what loading a file does**: the whole records of the bytes that are taken are inserted, and if bytes are
  left over the next record is read past the end.
- `loadsSafely_iff`: **when loading is safe**.
-/
import PathOram.Persistence

namespace PathOram

open Lib

/-- the record with a given index in a buffer of records -/
def recordAt (buffer : Bytes) (blockSize i : ℕ) : Block :=
  (leNumber (slice buffer (i * (8 + blockSize)) 8), slice buffer (i * (8 + blockSize) + 8) blockSize)

/-- the whole records of a buffer -/
def recordsOf (buffer : Bytes) (blockSize : ℕ) : List Block :=
  (List.range (buffer.length / (8 + blockSize))).map (recordAt buffer blockSize)

/-- the number of bytes that `loadFromFile` takes of a file -/
def bytesTaken (file : Bytes) : ℕ := (toInt file.length).toNat

theorem bytesTaken_le (file : Bytes) : bytesTaken file ≤ file.length := by
  have h : toInt file.length ≤ file.length := by
    rcases Nat.lt_or_ge file.length (2 ^ 31) with hlt | hge
    · exact (toInt_of_lt hlt).le
    · have := toInt_le hge
      omega
  rw [bytesTaken]
  omega

/-- a file that is shorter than 2^31 bytes is taken as a whole -/
theorem bytesTaken_of_lt {file : Bytes} (h : file.length < 2 ^ 31) : bytesTaken file = file.length := by
  rw [bytesTaken, toInt_of_lt h, Int.toNat_natCast]

section Load

variable {blockSize : ℕ}

/-- a record that is in the buffer is inserted -/
theorem loadRecord_exec {buffer : Bytes} {i : ℕ} (h : (i + 1) * (8 + blockSize) ≤ buffer.length) (w : World)
    (stash : Stash) : (loadRecord buffer blockSize (i * (8 + blockSize))).exec w stash =
      (.ok (), w, stash.emplace (recordAt buffer blockSize i).1 (recordAt buffer blockSize i).2) := by
  rw [Nat.succ_mul] at h
  rw [loadRecord, Int.toNat_natCast, if_neg (by omega), if_neg (by omega), if_neg (by omega)]
  rfl

/-- any other is read past the end -/
theorem loadRecord_past {buffer : Bytes} {i : ℕ} (h : buffer.length < (i + 1) * (8 + blockSize)) (w : World)
    (stash : Stash) :
    (loadRecord buffer blockSize (i * (8 + blockSize))).exec w stash = (.error .readPastEnd, w, stash) := by
  rw [Nat.succ_mul] at h
  rw [loadRecord, Int.toNat_natCast]
  split_ifs <;> first | rfl | omega

/-- the rounds of the loop over whole records -/
theorem loadRecords_exec (buffer : Bytes) (blockSize m i : ℕ) (h : (i + m) * (8 + blockSize) ≤ buffer.length) (w : World)
    (stash : Stash) :
    ((List.range' i m).forM fun i => loadRecord buffer blockSize (i * (8 + blockSize))).exec w stash =
      (.ok (), w, stash.emplaceAll ((List.range' i m).map (recordAt buffer blockSize))) := by
  induction m generalizing i stash with
  | zero => rfl
  | succ m ih =>
    have hfirst : (i + 1) * (8 + blockSize) ≤ buffer.length := (Nat.mul_le_mul_right _ (by omega)).trans h
    rw [List.range'_succ]
    change ((loadRecord buffer blockSize (i * (8 + blockSize))) >>= fun _ =>
      (List.range' (i + 1) m).forM fun i => loadRecord buffer blockSize (i * (8 + blockSize))).exec w stash = _
    rw [Prog.exec_bind_ok (loadRecord_exec hfirst w stash), ih (i + 1) (by rwa [Nat.add_right_comm])]
    rfl

/-- the loop of `loadFromFile` -/
theorem loadLoop_exec (buffer : Bytes) (blockSize : ℕ) (w : World) (stash : Stash) :
    ((List.range ((buffer.length + (8 + blockSize) - 1) / (8 + blockSize))).forM fun i =>
      loadRecord buffer blockSize (i * (8 + blockSize))).exec w stash =
      (if 8 + blockSize ∣ buffer.length then .ok () else .error .readPastEnd, w,
        stash.emplaceAll (recordsOf buffer blockSize)) := by
  have hpos : 0 < 8 + blockSize := by omega
  have hdiv := Nat.div_add_mod buffer.length (8 + blockSize)
  have hmod := Nat.mod_lt buffer.length hpos
  set whole := buffer.length / (8 + blockSize) with hwhole
  have hrecords := loadRecords_exec buffer blockSize whole 0 (by rw [Nat.zero_add, Nat.mul_comm]; omega) w stash
  rw [← List.range_eq_range'] at hrecords
  split_ifs with hdvd
  · have hzero : buffer.length % (8 + blockSize) = 0 := Nat.mod_eq_zero_of_dvd hdvd
    have hrounds : (buffer.length + (8 + blockSize) - 1) / (8 + blockSize) = whole := by
      rw [Nat.div_eq_iff hpos, Nat.mul_comm]
      omega
    rw [hrounds]
    exact hrecords
  · have hzero : buffer.length % (8 + blockSize) ≠ 0 := fun h => hdvd (Nat.dvd_of_mod_eq_zero h)
    have hrounds : (buffer.length + (8 + blockSize) - 1) / (8 + blockSize) = whole + 1 := by
      rw [Nat.div_eq_iff hpos, Nat.mul_comm, Nat.mul_succ]
      omega
    have hlast : buffer.length < (whole + 1) * (8 + blockSize) := by
      rw [Nat.mul_comm, Nat.mul_succ]
      omega
    have hsplit : ((List.range whole ++ [whole]).forM fun i => loadRecord buffer blockSize (i * (8 + blockSize))) =
        (List.range whole).forM (fun i => loadRecord buffer blockSize (i * (8 + blockSize))) >>= fun _ =>
          [whole].forM fun i => loadRecord buffer blockSize (i * (8 + blockSize)) := List.forM_append
    rw [hrounds, List.range_succ, hsplit, Prog.exec_bind_ok hrecords]
    change (loadRecord buffer blockSize (whole * (8 + blockSize)) >>= fun _ => pure ()).exec w _ = _
    rw [Prog.exec_bind_error (loadRecord_past hlast w _)]
    rfl

/-- **What loading a file does.** -/
theorem loadStash_exec (file : Bytes) (blockSize : ℕ) (w : World) (stash : Stash) :
    (loadStash file blockSize).exec w stash =
      (if 8 + blockSize ∣ bytesTaken file then .ok () else .error .readPastEnd, w,
        stash.emplaceAll (recordsOf (file.take (bytesTaken file)) blockSize)) := by
  have hlen : (file.take (bytesTaken file)).length = bytesTaken file := by
    rw [List.length_take]
    exact Nat.min_eq_left (bytesTaken_le file)
  unfold loadStash
  dsimp only
  split_ifs with hpos hdvd hdvd
  · have hloop := loadLoop_exec (file.take (bytesTaken file)) blockSize w stash
    rw [hlen, if_pos hdvd] at hloop
    exact hloop
  · have hloop := loadLoop_exec (file.take (bytesTaken file)) blockSize w stash
    rw [hlen, if_neg hdvd] at hloop
    exact hloop
  · have hzero : bytesTaken file = 0 := by
      rw [bytesTaken]
      omega
    rw [hzero]
    simp [recordsOf, UnorderedMap.emplaceAll]
  · have hzero : bytesTaken file = 0 := by
      rw [bytesTaken]
      omega
    exact absurd (hzero ▸ dvd_zero _) hdvd

/-- a load with a negative size throws before it inserts -/
theorem loadStash_negative {blockSize : ℤ} (h : blockSize < 0) (file : Bytes) (w : World) (stash : Stash) :
    ((loadStash file blockSize).exec w stash).2.2 = stash := by
  have hload : Triple (fun s => s = stash) (loadStash file blockSize) (fun _ s => s = stash) (fun _ s => s = stash) := by
    unfold loadStash
    dsimp only
    generalize toInt file.length = size
    refine Triple.ite (fun _ => ?_) fun _ => Triple.pure fun _ hs => hs
    apply Triple.forM (fun _ s => s = stash)
    intro i _ _
    unfold loadRecord
    exact Triple.ite (fun _ => Triple.throw fun _ hs => hs) fun _ =>
      Triple.ite (fun _ => Triple.throw fun _ hs => hs) fun hsize => absurd h hsize
  exact hload.state rfl

/-- the records of the front of a file are the first of its records -/
theorem recordsOf_take {file : Bytes} {k : ℕ} (hk : k ≤ file.length) :
    recordsOf (file.take k) blockSize = (recordsOf file blockSize).take (k / (8 + blockSize)) := by
  have hpos : 0 < 8 + blockSize := by omega
  have hcount : k / (8 + blockSize) ≤ file.length / (8 + blockSize) := Nat.div_le_div_right hk
  rw [recordsOf, recordsOf, ← List.map_take, List.take_range, Nat.min_eq_left hcount, List.length_take,
    Nat.min_eq_left hk]
  apply List.map_congr_left
  intro i hi
  have hlt : (i + 1) * (8 + blockSize) ≤ k := (Nat.le_div_iff_mul_le hpos).1 (List.mem_range.1 hi)
  rw [Nat.succ_mul] at hlt
  rw [recordAt, recordAt, slice_take (by omega), slice_take (by omega)]

/-- the stash has the records with their payloads, and is otherwise as it was -/
structure AddsExactly (records : List Block) (stash stash' : Stash) : Prop where
  added : ∀ record ∈ records, stash'.lookup record.1 = some record.2
  others : ∀ id ∉ records.map Prod.fst, stash'.lookup id = stash.lookup id

/-- loading a file either throws and leaves the stash alone, or adds exactly the records of the file, which has nothing else,
without reading past the end of a buffer; of a file that is not empty it takes something -/
def LoadsSafely (file : Bytes) (blockSize : ℕ) (stash : Stash) : Prop :=
  ∀ w, (∃ e, (e ≠ .readPastEnd ∧ e ≠ .diverges) ∧ ∃ w', (loadStash file blockSize).exec w stash = (.error e, w', stash)) ∨
    8 + blockSize ∣ file.length ∧ (file ≠ [] → 0 < bytesTaken file) ∧
      ∃ w' stash', (loadStash file blockSize).exec w stash = (.ok (), w', stash') ∧
        AddsExactly (recordsOf file blockSize) stash stash'

/-- The file is a number of whole records, so are the bytes that are taken of it, and these are some if the file has any.
Records of one ID have one payload, in the file and in the stash, and those beyond the bytes taken have IDs that are in the
stash or were met before. -/
structure TakesAllRecords (file : Bytes) (blockSize : ℕ) (stash : Stash) : Prop where
  whole : 8 + blockSize ∣ file.length
  taken : 8 + blockSize ∣ bytesTaken file
  some_taken : file ≠ [] → 0 < bytesTaken file
  alike : ∀ record ∈ recordsOf file blockSize, ∀ record' ∈ recordsOf file blockSize, record.1 = record'.1 →
    record.2 = record'.2
  held : ∀ record ∈ recordsOf file blockSize, ∀ data, stash.lookup record.1 = some data → data = record.2
  beyond : ∀ record ∈ (recordsOf file blockSize).drop (bytesTaken file / (8 + blockSize)), record.1 ∈ stash ∨
    record.1 ∈ ((recordsOf file blockSize).take (bytesTaken file / (8 + blockSize))).map Prod.fst

/-- a file that fits an `int` is taken as a whole -/
theorem takesAllRecords_iff_of_lt {file : Bytes} (hsmall : file.length < 2 ^ 31) (stash : Stash) :
    TakesAllRecords file blockSize stash ↔ 8 + blockSize ∣ file.length ∧
      (∀ record ∈ recordsOf file blockSize, ∀ record' ∈ recordsOf file blockSize, record.1 = record'.1 →
        record.2 = record'.2) ∧
      ∀ record ∈ recordsOf file blockSize, ∀ data, stash.lookup record.1 = some data → data = record.2 := by
  have htaken := bytesTaken_of_lt hsmall
  constructor
  · intro h
    exact ⟨h.whole, h.alike, h.held⟩
  · intro ⟨hwhole, halike, hheld⟩
    refine ⟨hwhole, htaken ▸ hwhole, fun hne => ?_, halike, hheld, fun record hr => ?_⟩
    · rw [htaken]
      exact List.length_pos_iff.2 hne
    · have hall : (recordsOf file blockSize).length = bytesTaken file / (8 + blockSize) := by
        rw [recordsOf, List.length_map, List.length_range, htaken]
      rw [List.drop_eq_nil_of_le hall.le] at hr
      exact (List.not_mem_nil hr).elim

/-- inserting the first records adds all of them if and only if no payload is in the way and the others have no new IDs -/
theorem addsExactly_iff {records : List Block} {k : ℕ} {stash : Stash} :
    AddsExactly records stash (stash.emplaceAll (records.take k)) ↔
      (∀ record ∈ records, ∀ record' ∈ records, record.1 = record'.1 → record.2 = record'.2) ∧
      (∀ record ∈ records, ∀ data, stash.lookup record.1 = some data → data = record.2) ∧
      ∀ record ∈ records.drop k, record.1 ∈ stash ∨ record.1 ∈ (records.take k).map Prod.fst := by
  have hkept : ∀ {id data}, stash.lookup id = some data → (stash.emplaceAll (records.take k)).lookup id = some data :=
    fun h => UnorderedMap.lookup_emplaceAll_of_some h
  constructor
  · intro h
    refine ⟨fun record hr record' hr' hid => ?_, fun record hr data hdata => ?_, fun record hr => ?_⟩
    · have hboth := h.added record hr
      rw [hid, h.added record' hr'] at hboth
      exact (Option.some.inj hboth).symm
    · exact Option.some.inj ((hkept hdata).symm.trans (h.added record hr))
    · rw [← UnorderedMap.mem_emplaceAll, UnorderedMap.mem_iff_lookup]
      exact ⟨_, h.added record (List.mem_of_mem_drop hr)⟩
  · intro ⟨halike, hheld, hbeyond⟩
    constructor
    · intro record hr
      have hmem : record.1 ∈ stash.emplaceAll (records.take k) := by
        rw [UnorderedMap.mem_emplaceAll]
        rw [← List.take_append_drop k records] at hr
        rcases List.mem_append.1 hr with hfirst | hrest
        · exact Or.inr (List.mem_map_of_mem hfirst)
        · exact hbeyond record hrest
      obtain ⟨data, hdata⟩ := UnorderedMap.mem_iff_lookup.1 hmem
      rw [hdata]
      rcases UnorderedMap.of_lookup_emplaceAll hdata with hfirst | hold
      · exact congrArg some (halike _ (List.mem_of_mem_take hfirst) record hr rfl)
      · exact congrArg some (hheld record hr data hold)
    · intro id hid
      refine Option.ext fun data => ⟨fun hdata => ?_, hkept⟩
      rcases UnorderedMap.of_lookup_emplaceAll hdata with hfirst | hold
      · exact absurd (List.mem_map.2 ⟨_, List.mem_of_mem_take hfirst, rfl⟩) hid
      · exact hold

/-- **When loading is safe**: if and only if all records of the file are taken. -/
theorem loadsSafely_iff (file : Bytes) (blockSize : ℕ) (stash : Stash) :
    LoadsSafely file blockSize stash ↔ TakesAllRecords file blockSize stash := by
  have hload := fun w => loadStash_exec file blockSize w stash
  rw [recordsOf_take (bytesTaken_le file)] at hload
  constructor
  · intro h
    rcases h ⟨fun _ => 0, fun _ => 0⟩ with ⟨e, ⟨he, -⟩, w', hexec⟩ | ⟨hwhole, hsome, w', stash', hexec, hadds⟩
    · have hfst := congrArg Prod.fst (hload _ ▸ hexec)
      dsimp only at hfst
      split_ifs at hfst
      exact absurd (Except.error.inj hfst).symm he
    · rw [hload] at hexec
      have hfst := congrArg Prod.fst hexec
      have hstash := congrArg (fun r => r.2.2) hexec
      dsimp only at hfst hstash
      split_ifs at hfst with htaken
      obtain ⟨halike, hheld, hbeyond⟩ := addsExactly_iff.1 (hstash ▸ hadds)
      exact ⟨hwhole, htaken, hsome, halike, hheld, hbeyond⟩
  · intro h w
    refine Or.inr ⟨h.whole, h.some_taken, w, _, ?_, addsExactly_iff.2 ⟨h.alike, h.held, h.beyond⟩⟩
    rw [hload, if_pos h.taken]

/-- A file that was cut off, one of 2^31 bytes, and one with another payload for a block of the stash: from the first a record
is read past its end, of the second nothing is loaded, and the record of the third is left out. -/
theorem loads_unsafely :
    ¬ LoadsSafely (List.replicate 12 0) 8 ∅ ∧ ¬ LoadsSafely (List.replicate (2 ^ 31) 0) 0 ∅ ∧
      ¬ LoadsSafely (recordBytes (5, [2])) 1 (UnorderedMap.emplace ∅ 5 [1]) := by
  refine ⟨?_, ?_, ?_⟩
  · intro h
    have hexec : ((loadStash (List.replicate 12 0) 8).exec zeroWorld ∅).1 = .error .readPastEnd := by decide +kernel
    rcases h zeroWorld with ⟨e, ⟨he, -⟩, w', hexec'⟩ | ⟨-, -, w', stash', hexec', -⟩
    · rw [show ((8 : ℕ) : ℤ) = 8 from rfl] at hexec'
      rw [hexec'] at hexec
      exact he (Except.error.inj hexec)
    · rw [show ((8 : ℕ) : ℤ) = 8 from rfl] at hexec'
      rw [hexec'] at hexec
      cases hexec
  · have hlength : (List.replicate (2 ^ 31) (0 : UInt8)).length = 2 ^ 31 := List.length_replicate
    generalize List.replicate (2 ^ 31) (0 : UInt8) = file at hlength ⊢
    intro h
    have htaken : bytesTaken file = 0 := by
      rw [bytesTaken, hlength]
      decide
    have hexec := loadStash_exec file 0 zeroWorld ∅
    rw [htaken, if_pos (dvd_zero _), List.take_zero] at hexec
    rcases h zeroWorld with ⟨e, -, w', hexec'⟩ | ⟨-, hsome, -⟩
    · rw [hexec] at hexec'
      cases hexec'
    · have hne : file ≠ [] := fun he => by simp [he] at hlength
      have hpos := hsome hne
      rw [htaken] at hpos
      exact lt_irrefl 0 hpos
  · intro h
    have hrecords : (5, [2]) ∈ recordsOf (recordBytes (5, [2])) 1 := by decide +kernel
    have hstash : (UnorderedMap.emplace (∅ : Stash) 5 [1]).lookup 5 = some [1] := by decide +kernel
    rcases h zeroWorld with ⟨e, ⟨he, -⟩, w', hexec⟩ | ⟨-, -, w', stash', hexec, hadds⟩
    · have hfst := congrArg Prod.fst (loadStash_exec _ 1 zeroWorld _ ▸ hexec)
      dsimp only at hfst
      split_ifs at hfst
      exact he (Except.error.inj hfst).symm
    · rw [loadStash_exec] at hexec
      have hadded := hadds.added _ hrecords
      have hkept := congrArg (fun r => AList.lookup 5 r.2.2) hexec
      dsimp only at hkept
      rw [UnorderedMap.lookup_emplaceAll_of_some hstash, hadded] at hkept
      cases hkept

end Load

end PathOram
