/-
Payloads of one size.

If every payload that is put or loaded is as long as a block, then so is every payload in the stash, in the cache and in
the buckets, and all IDs and leaves are 64-bit numbers. This needs nothing of the sizes of the tree and the adapters: an
access to a bucket or an entry that does not exist throws, and the results are about calls that return.

- `construct_payloads`, `load_payloads`, `exec_payloads`: the invariant `Payloads` holds after the construction and is kept
  by a load and by a call.
- `run_payloads`: **it is kept by a run**, after which nothing is cached.
-/
import PathOram.Outline
import PathOram.Guards

namespace PathOram

open Lib

/-- a block with a 64-bit ID and a payload of n bytes -/
def FullBlock (n : ℕ) (b : Block) : Prop := b.1 < 2 ^ 64 ∧ b.2.length = n

/-- every put of a call is of n bytes, and its IDs are 64-bit numbers -/
def Call.FullPayloads (n : ℕ) (call : Call) : Prop :=
  ∀ op ∈ call.ops, op.block < 2 ^ 64 ∧ (op.read = false → op.data.length = n)

/-! ## The storage -/

namespace StorageAdapter

variable {β : Type} {S : StorageAdapter β} (L : LawfulBackend S.backend S.capacity S.blockSize)

/-- every stored bucket decodes to blocks of full payloads -/
def StoresFull (t : StorageState β) : Prop :=
  ∀ ℓ < S.capacity, ∃ b, S.decodeBucket (L.raw t.backend ℓ) = .ok b ∧ ∀ x ∈ b, FullBlock S.userBlockSize x

variable {L}

theorem get_full (locations : List ℕ) :
    Triple (StoresFull L) (S.get locations) (fun r t => (∀ x ∈ r, FullBlock S.userBlockSize x) ∧ StoresFull L t)
      (fun _ _ => True) := by
  intro w t ht
  by_cases hn : S.Ends locations.length
  · by_cases hl : ∀ ℓ ∈ locations, ℓ < S.capacity
    · choose! g hdec hfull using ht
      have hget : Triple (RawIs L (L.raw t.backend) t.calls) (S.get locations) _ _ :=
        get_decodes (g := g) hl hn fun ℓ hℓ => hdec ℓ (hl ℓ hℓ)
      refine (hget.conseq (fun _ h => h) (fun r t' h => ⟨fun x hx => ?_, fun ℓ hℓ => ?_⟩) fun _ _ _ => trivial) w t ⟨rfl, rfl⟩
      · rw [h.1, List.mem_flatMap] at hx
        obtain ⟨ℓ, hℓ, hx⟩ := hx
        exact hfull ℓ (hl ℓ hℓ) x hx
      · rw [h.2.1]
        exact ⟨g ℓ, hdec ℓ hℓ, hfull ℓ hℓ⟩
    · -- the check of a location throws
      have hthrows : Triple (StoresFull L) (S.get locations) (fun _ _ => False) (fun _ _ => True) := by
        unfold get
        refine Triple.bind (Q := fun _ t => (∀ ℓ ∈ locations, ℓ < S.capacity) ∧ StoresFull L t) ?_ fun _ =>
          Triple.of_pure fun h => absurd h hl
        exact (checkCapacities_triple locations).conseq (fun _ h => h) (fun _ _ h => h) fun _ _ _ => trivial
      exact (hthrows.post fun _ _ h => h.elim) w t ht
  · exact ((get_diverges (P := StoresFull L) hn).post fun _ _ h => h.elim) w t ht

/-- padding does not change payloads that are as long as a block -/
theorem stored_of_full {b : Bucket} (h : ∀ x ∈ b, x.2.length = S.userBlockSize) : S.stored b = b := by
  have hmap : S.stored b = b.map id := List.map_congr_left fun x hx => by rw [zeroPad_of_length (h x hx)]; rfl
  rw [hmap, List.map_id]

/-- what is stored of blocks with payloads that are not too long is as long as a block -/
theorem set_full (hc : S.crypto.Lawful) {requests : List (ℕ × Bucket)}
    (h : ∀ r ∈ requests, ∀ x ∈ r.2, x.1 < 2 ^ 64 ∧ x.2.length ≤ S.userBlockSize) :
    Triple (StoresFull L) (S.set requests) (fun _ => StoresFull L) (fun _ _ => True) := by
  intro w t ht
  have hset : Triple (RawIs L (L.raw t.backend) t.calls) (S.set requests) _ _ :=
    set_checked hc fun r hr x hx => (h r hr x hx).1
  refine (hset.conseq (fun _ h => h) (fun _ t' h' => ?_) fun _ _ _ => trivial) w t ⟨rfl, rfl⟩
  obtain ⟨writes, hwrites, hraw, -⟩ := h'
  -- one write after the other
  have hwrite : ∀ {writes : List (ℕ × Bytes)} {f : ℕ → Bytes}, (∀ x ∈ writes, ∃ r ∈ requests, Encodes S r x) →
      (∀ ℓ < S.capacity, ∃ b, S.decodeBucket (f ℓ) = .ok b ∧ ∀ x ∈ b, FullBlock S.userBlockSize x) →
      ∀ ℓ < S.capacity, ∃ b, S.decodeBucket (writeAll f writes ℓ) = .ok b ∧ ∀ x ∈ b, FullBlock S.userBlockSize x := by
    intro writes
    induction writes with
    | nil => exact fun _ hf => hf
    | cons y writes ih =>
      intro f hall hf
      apply ih (f := Function.update f y.1 y.2) (fun x hx => hall x (List.mem_cons_of_mem _ hx))
      intro ℓ hℓ
      obtain ⟨r, hr, -, -, hdec⟩ := hall y List.mem_cons_self
      rw [Function.update_apply]
      split_ifs
      · refine ⟨_, hdec, fun x hx => ?_⟩
        obtain ⟨z, hz, rfl⟩ := List.mem_map.1 hx
        exact ⟨(h r hr z hz).1, length_zeroPad (h r hr z hz).2⟩
      · exact hf ℓ hℓ
  intro ℓ hℓ
  rw [hraw]
  refine hwrite (fun x hx => ?_) ht ℓ hℓ
  obtain ⟨r, hr, -, he⟩ := exists_of_mem_right hwrites hx
  exact ⟨r, hr, he⟩

end StorageAdapter

/-! ## The invariant -/

section

variable {β : Type} {mapCapacity : ℕ} {O : Oram β (PositionArray mapCapacity)}

/-- every payload that the ORAM has is as long as a block, and leaves and IDs are 64-bit numbers -/
structure Payloads (L : LawfulBackend O.storage.backend O.storage.capacity O.storage.blockSize)
    (s : OramState β (PositionArray mapCapacity)) : Prop where
  map : ∀ leaf ∈ s.map, leaf < 2 ^ 64
  stash : ∀ k d, s.stash.lookup k = some d → FullBlock O.storage.userBlockSize (k, d)
  cache : ∀ ℓ b, s.cache.lookup ℓ = some b → ∀ x ∈ b, FullBlock O.storage.userBlockSize x
  storage : StorageAdapter.StoresFull L s.storage

variable {L : LawfulBackend O.storage.backend O.storage.capacity O.storage.blockSize}

/-- the invariant as a guard, which no exception survives -/
def payloadGuard (L : LawfulBackend O.storage.backend O.storage.capacity O.storage.blockSize) :
    Guard β (PositionArray mapCapacity) where
  location _ := True
  block := FullBlock O.storage.userBlockSize
  slot := FullBlock O.storage.userBlockSize
  request id := id < 2 ^ 64
  storage := StorageAdapter.StoresFull L
  map m := ∀ leaf ∈ m, leaf < 2 ^ 64
  throws _ := True
  survives _ := False

theorem payloads_iff {s : OramState β (PositionArray mapCapacity)} : Payloads L s ↔ (payloadGuard L).Holds s :=
  ⟨fun hs => ⟨hs.storage, hs.map, hs.stash, fun _ _ => trivial, hs.cache⟩,
    fun hs => ⟨hs.map, hs.stash, hs.cache, hs.storage⟩⟩

/-! ## Calls -/

section Calls

variable (hmap : O.map = inMemoryPositionMap mapCapacity) (hdata : O.dataSize = O.storage.userBlockSize)

include hmap

theorem mapSet_full (i : ℕ) {leaf : ℕ} (hleaf : leaf < 2 ^ 64) {E : Exception → PositionArray mapCapacity → Prop}
    (hE : ∀ e m, E e m) : Triple (fun m => ∀ x ∈ m, x < 2 ^ 64) (O.map.set i leaf) (fun _ m => ∀ x ∈ m, x < 2 ^ 64) E := by
  intro w m hm
  rw [hmap, exec_arraySet]
  split_ifs
  · exact hE _ _
  · intro x hx
    obtain ⟨j, hj, rfl⟩ := Vector.getElem_of_mem hx
    rw [Vector.getElem_setIfInBounds]
    split_ifs
    · exact hleaf
    · exact hm _ (Vector.getElem_mem hj)

include hdata

/-- nothing else is asked of the ORAM than that its empty blocks are as long as the others -/
theorem payloadGuard_laws (hc : O.storage.crypto.Lawful) : (payloadGuard L).Laws O where
  get locations _ _ := (StorageAdapter.get_full locations).conseq (fun _ ht => ht)
    (fun _ _ ht => ⟨⟨ht.1, fun _ _ => trivial⟩, ht.2⟩) fun _ _ _ => ⟨trivial, False.elim⟩
  set requests hr := (StorageAdapter.set_full hc fun r hm x hx => ⟨((hr r hm).2 x hx).1, ((hr r hm).2 x hx).2.le⟩).conseq
    (fun _ ht => ht) (fun _ _ ht => ht) fun _ _ _ => ⟨trivial, False.elim⟩
  position block _ := by
    intro w m hm
    rw [hmap, exec_arrayGet]
    split_ifs
    · exact ⟨trivial, False.elim⟩
    · exact ⟨fun _ _ => trivial, hm⟩
  entry x _ := by
    intro w m hm
    rw [hmap, exec_arrayGet]
    split_ifs
    · exact ⟨trivial, False.elim⟩
    · exact hm
  remap block leaf _ hleaf := mapSet_full hmap block (hleaf.trans shlOne_lt) fun _ _ => ⟨trivial, False.elim⟩
  block_of_slot _ hx _ := hx
  slot_of_block _ hx := hx
  dummy x hid hlen := ⟨by rw [hid]; norm_num [ulongMax], hlen.trans hdata⟩
  padded x hx := by rwa [zeroPad_of_length hx.2]
  overCapacity _ := trivial
  tooManyRequests _ _ := trivial
  diverges := trivial

/-- **A call keeps the invariant** and leaves nothing in the cache. -/
theorem exec_payloads (hc : O.storage.crypto.Lawful) {call : Call} (hcall : call.FullPayloads O.storage.userBlockSize) :
    Triple (Payloads L) (O.exec call) (fun _ s => s.cache = ∅ ∧ Payloads L s) (fun _ _ => True) := by
  have hallows : ∀ op ∈ call.ops, (payloadGuard L).Allows op := fun op hop =>
    ⟨(hcall op hop).1, fun hread => ⟨(hcall op hop).1, (hcall op hop).2 hread⟩⟩
  exact ((payloadGuard_laws hmap hdata hc).exec hallows).conseq (fun _ hs => payloads_iff.1 hs)
    (fun _ _ hs => ⟨hs.1, payloads_iff.2 hs.2⟩) fun _ _ _ => trivial

/-- **So do calls that all return.** -/
theorem run_payloads (hc : O.storage.crypto.Lawful) {calls : List Call}
    (hcalls : ∀ call ∈ calls, call.FullPayloads O.storage.userBlockSize) :
    Triple (fun s => s.cache = ∅ ∧ Payloads L s) (O.run calls) (fun _ s => s.cache = ∅ ∧ Payloads L s) (fun _ _ => True) :=
  (Triple.mapM (R := fun _ _ => True) fun call hm => (exec_payloads hmap hdata hc (hcalls call hm)).conseq
    (fun _ hs => hs.2) (fun _ _ hs => ⟨hs, trivial⟩) fun _ _ _ => trivial).post fun _ _ hs => hs.1

end Calls

/-! ## The construction and the load -/

section Construction

variable (hmap : O.map = inMemoryPositionMap mapCapacity)

include hmap

/-- the map is set between two calls -/
theorem mapSet_payloads (i : ℕ) {leaf : ℕ} (hleaf : leaf < 2 ^ 64) :
    Triple (fun s => s.cache = ∅ ∧ Payloads L s) (Oram.onMap (O.map.set i leaf)) (fun _ s => s.cache = ∅ ∧ Payloads L s)
      (fun _ _ => True) := by
  intro w s hs
  refine ((Triple.zoom (OramState.mapLens β (PositionArray mapCapacity))
    (mapSet_full hmap i hleaf (E := fun _ _ => True) fun _ _ => trivial) s).conseq (fun _ h => h) ?_
    fun _ _ _ => trivial) w s ⟨rfl, hs.2.map⟩
  rintro _ _ ⟨m, rfl, hm⟩
  exact ⟨hs.1, { hs.2 with map := hm }⟩

/-- **The construction** establishes the invariant, whatever the storage held. -/
theorem construct_payloads (hc : O.storage.crypto.Lawful) :
    Triple (fun s => Fresh s ∧ ∀ leaf ∈ s.map, leaf < 2 ^ 64) O.construct (fun _ s => s.cache = ∅ ∧ Payloads L s)
      (fun _ _ => True) := by
  unfold Oram.construct
  refine Triple.bind (Q := fun _ s => s.cache = ∅ ∧ Payloads L s) ?_ fun _ => ?_
  · intro w s hs
    refine ((Triple.zoom (OramState.storageLens β (PositionArray mapCapacity)) (P := fun _ => True)
      (StorageAdapter.fillWithZeroes_triple (L := L) hc) s).conseq (fun _ h => h) (fun _ s' h => ?_)
      fun _ _ _ => trivial) w s ⟨rfl, trivial⟩
    obtain ⟨t, rfl, calls, hdec, -, -⟩ := h
    refine ⟨hs.1.cache, hs.2, fun k d hd => ?_, fun ℓ b hb => ?_, fun ℓ hℓ => ⟨_, hdec ℓ hℓ, fun x hx => ?_⟩⟩
    · change s.stash.lookup k = some d at hd
      rw [hs.1.stash] at hd
      simp at hd
    · change s.cache.lookup ℓ = some b at hb
      rw [hs.1.cache] at hb
      simp at hb
    · dsimp only at hx
      rw [if_pos hℓ] at hx
      rw [List.eq_of_mem_replicate hx]
      exact ⟨by norm_num [ulongMax], length_zeroPad (Nat.zero_le _)⟩
  · apply Triple.forM (fun _ s => s.cache = ∅ ∧ Payloads L s)
    intro i rest _
    refine Triple.bind (Q := fun leaf s => leaf < 2 ^ 64 ∧ s.cache = ∅ ∧ Payloads L s)
      (randBytes_triple.bind fun material => Triple.pure fun _ hs => ⟨?_, hs⟩) fun leaf => Triple.of_pure fun hleaf => ?_
    · exact (Nat.mod_le _ _).trans_lt (Nat.mod_lt _ (by norm_num))
    · exact mapSet_payloads hmap i hleaf

/-- the requests of a load so far -/
def FullLoading (O : Oram β (PositionArray mapCapacity)) (l : Oram.Loading) : Prop :=
  (∀ x ∈ l.bucket, FullBlock O.storage.userBlockSize x) ∧
    ∀ r ∈ l.writeRequests, ∀ x ∈ r.2, FullBlock O.storage.userBlockSize x

omit hmap in
/-- what pads the last bucket are empty blocks -/
theorem padLoop_blocks {B : Block → Prop} (hempty : B (ulongMax, [])) {fuel i : ℕ} {bucket bucket' : Bucket}
    (h : O.padLoop fuel i bucket = some bucket') (hb : ∀ x ∈ bucket, B x) : ∀ x ∈ bucket', B x := by
  induction fuel generalizing i bucket with
  | zero => cases h
  | succ fuel ih =>
    rw [Oram.padLoop] at h
    split_ifs at h
    · apply ih h
      intro x hx
      rcases List.mem_append.1 hx with hx | hx
      · exact hb x hx
      · exact List.mem_singleton.1 hx ▸ hempty
    · cases h
      exact hb

/-- **A load keeps the invariant.** -/
theorem load_payloads (hc : O.storage.crypto.Lawful) {data : List Block}
    (hdata : ∀ x ∈ data, FullBlock O.storage.userBlockSize x) :
    Triple (fun s => s.cache = ∅ ∧ Payloads L s) (O.load data) (fun _ s => s.cache = ∅ ∧ Payloads L s) (fun _ _ => True) := by
  have hset : ∀ {requests : List (ℕ × Bucket)},
      (∀ r ∈ requests, ∀ x ∈ r.2, x.1 < 2 ^ 64 ∧ x.2.length ≤ O.storage.userBlockSize) →
      Triple (fun s => s.cache = ∅ ∧ Payloads L s) (Oram.onStorage (O.storage.set requests))
        (fun _ s => s.cache = ∅ ∧ Payloads L s) (fun _ _ => True) := by
    intro requests h w s hs
    refine ((Triple.zoom (OramState.storageLens β (PositionArray mapCapacity)) (StorageAdapter.set_full (L := L) hc h)
      s).conseq (fun _ h => h) (fun _ s' h => ?_) fun _ _ _ => trivial) w s ⟨rfl, hs.2.storage⟩
    obtain ⟨t, rfl, ht⟩ := h
    exact ⟨hs.1, { hs.2 with storage := ht }⟩
  unfold Oram.load
  apply Triple.ite (fun _ => Triple.throw fun _ _ => trivial)
  intro _
  apply (shuffle_triple data).bind
  intro order
  apply Triple.of_pure
  intro horder
  have horder : ∀ x ∈ order, FullBlock O.storage.userBlockSize x := fun x hx => hdata x (horder.mem_iff.1 hx)
  -- the records are collected, and their leaves drawn
  have hrecord : ∀ (bucketCount : ℕ) (l : Oram.Loading) (record : Block), FullBlock O.storage.userBlockSize record →
      FullLoading O l → Triple (fun s => s.cache = ∅ ∧ Payloads L s) (O.loadRecord bucketCount l record)
        (fun l' s => FullLoading O l' ∧ s.cache = ∅ ∧ Payloads L s) (fun _ _ => True) := by
    intro bucketCount l record hrec hl
    unfold Oram.loadRecord
    dsimp only
    refine Triple.bind (Q := fun _ s => s.cache = ∅ ∧ Payloads L s)
      (randBytes_triple.bind fun _ => Triple.pure fun _ hs => hs) fun leaf => ?_
    apply (mapSet_payloads hmap record.1 (Nat.mod_lt _ (by norm_num))).bind
    intro _
    have hbucket : ∀ x ∈ (if l.bucket.length < O.Z then l.bucket ++ [record] else l.bucket),
        FullBlock O.storage.userBlockSize x := by
      intro x hx
      split_ifs at hx
      · rcases List.mem_append.1 hx with hx | hx
        · exact hl.1 x hx
        · exact List.mem_singleton.1 hx ▸ hrec
      · exact hl.1 x hx
    refine Triple.ite (fun _ => Triple.pure fun _ hs => ⟨⟨fun x hx => (List.not_mem_nil hx).elim, fun r hr => ?_⟩, hs⟩)
      fun _ => Triple.pure fun _ hs => ⟨⟨hbucket, hl.2⟩, hs⟩
    rcases List.mem_append.1 hr with hr | hr
    · exact hl.2 r hr
    · exact List.mem_singleton.1 hr ▸ hbucket
  have hle : ∀ x, FullBlock O.storage.userBlockSize x → x.1 < 2 ^ 64 ∧ x.2.length ≤ O.storage.userBlockSize :=
    fun x hx => ⟨hx.1, hx.2.le⟩
  refine Triple.bind (Q := fun l s => FullLoading O l ∧ s.cache = ∅ ∧ Payloads L s) ?_ fun l => Triple.of_pure fun hl => ?_
  · have hnone : FullLoading O ⟨0, [], []⟩ :=
      ⟨fun x hx => (List.not_mem_nil hx).elim, fun r hr => (List.not_mem_nil hr).elim⟩
    exact (Triple.foldlM (fun _ l s => FullLoading O l ∧ s.cache = ∅ ∧ Payloads L s) (fun l record rest hr =>
      Triple.of_pure fun hl => hrecord _ l record (horder record (hr.subset List.mem_cons_self)) hl) _).pre
      fun s hs => ⟨hnone, hs⟩
  · have hupload : ∀ {requests : List (ℕ × Bucket)},
        (∀ r ∈ requests, ∀ x ∈ r.2, x.1 < 2 ^ 64 ∧ x.2.length ≤ O.storage.userBlockSize) →
        Triple (fun s => s.cache = ∅ ∧ Payloads L s) (do
          Oram.onStorage (O.storage.set requests)
          return order : Run (OramState β (PositionArray mapCapacity)) (List Block))
          (fun _ s => s.cache = ∅ ∧ Payloads L s) (fun _ _ => True) := fun h =>
      (hset h).bind fun _ => Triple.pure fun _ hs => hs
    refine Triple.ite (fun _ => ?_) fun _ => hupload fun r hr x hx => hle x (hl.2 r hr x hx)
    cases hpad : O.padLoop (O.Z + 1) 0 l.bucket with
    | none => exact Triple.bind (Q := fun _ _ => False) (Triple.throw fun _ _ => trivial) fun _ => fun _ _ h => h.elim
    | some bucket =>
      apply hupload
      intro r hr x hx
      rcases List.mem_append.1 hr with hr | hr
      · exact hle x (hl.2 r hr x hx)
      · rw [List.mem_singleton.1 hr] at hx
        exact padLoop_blocks (B := fun x => x.1 < 2 ^ 64 ∧ x.2.length ≤ O.storage.userBlockSize)
          ⟨by norm_num [ulongMax], Nat.zero_le _⟩ hpad (fun x hx => hle x (hl.1 x hx)) x hx

end Construction

end

end PathOram
