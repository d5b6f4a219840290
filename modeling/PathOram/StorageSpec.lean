/-
What the storage adapter does, over any lawful provider and any lawful cipher.

- `LawfulBackend`: the contract of a provider. It returns the bytes last written, or throws a `fault`; a write that
  throws has written some of its requests, each whole.
- `decodeBucket_record`: **the codec round trip**. What `set` sends for a bucket decodes to the bucket with its
  payloads padded.
- `Ends n`: a download of n locations ends. `getInternalLoop_diverges`: the others do not.
- `Holds g`: the stored bytes decode to the buckets g.
- `get_triple`, `set_triple`: `get` returns the buckets of its locations in order, `set` replaces the buckets of its
  requests in order, and both leave a record of their call.
-/
import PathOram.StorageAdapter

namespace PathOram

open Lib

/-- write buffers in turn -/
def writeAll {α : Type} (f : ℕ → α) (writes : List (ℕ × α)) : ℕ → α :=
  writes.foldl (fun f w => Function.update f w.1 w.2) f

theorem writeAll_append {α : Type} (f : ℕ → α) (a b : List (ℕ × α)) :
    writeAll f (a ++ b) = writeAll (writeAll f a) b := List.foldl_append

theorem writeAll_of_notMem {α : Type} (f : ℕ → α) (writes : List (ℕ × α)) {ℓ : ℕ} (h : ℓ ∉ writes.map Prod.fst) :
    writeAll f writes ℓ = f ℓ := by
  induction writes generalizing f with
  | nil => rfl
  | cons w writes ih =>
    simp only [List.map_cons, List.mem_cons, not_or] at h
    show writeAll (Function.update f w.1 w.2) writes ℓ = _
    rw [ih _ h.2, Function.update_of_ne h.1]

theorem writeAll_of_mem {α : Type} (f : ℕ → α) (writes : List (ℕ × α)) (hn : (writes.map Prod.fst).Nodup) {ℓ : ℕ} {v : α}
    (h : (ℓ, v) ∈ writes) : writeAll f writes ℓ = v := by
  induction writes generalizing f with
  | nil => simp at h
  | cons w writes ih =>
    rw [List.map_cons, List.nodup_cons] at hn
    show writeAll (Function.update f w.1 w.2) writes ℓ = _
    rcases List.mem_cons.1 h with rfl | h
    · rw [writeAll_of_notMem _ _ hn.1, Function.update_self]
    · exact ih _ hn.2 h

/-- a part of the second list of a pairing is paired with a part of the first -/
theorem exists_sublist_forall₂ {α γ : Type} {R : α → γ → Prop} {l : List α} {l' done : List γ}
    (h : List.Forall₂ R l l') (hd : done.Sublist l') : ∃ done', done'.Sublist l ∧ List.Forall₂ R done' done := by
  induction h generalizing done with
  | nil =>
    rw [List.sublist_nil] at hd
    exact ⟨[], List.Sublist.refl _, hd ▸ List.Forall₂.nil⟩
  | @cons a b l l' hab _ ih =>
    cases hd with
    | cons _ hd =>
      obtain ⟨done', hs, hf⟩ := ih hd
      exact ⟨done', hs.cons a, hf⟩
    | cons_cons _ hd =>
      obtain ⟨done', hs, hf⟩ := ih hd
      exact ⟨a :: done', hs.cons_cons a, hf.cons hab⟩

theorem exists_of_mem_right {α γ : Type} {R : α → γ → Prop} {l : List α} {l' : List γ} (h : List.Forall₂ R l l') {b : γ}
    (hb : b ∈ l') : ∃ a ∈ l, R a b := by
  obtain ⟨i, hi, rfl⟩ := List.mem_iff_getElem.1 hb
  have hi' : i < l.length := h.length_eq ▸ hi
  exact ⟨l[i], List.getElem_mem hi', h.get hi' hi⟩

/-! ## The contract of a provider -/

/-- a provider of `capacity` buffers of `blockSize` bytes that returns what was last written, or throws -/
structure LawfulBackend {β : Type} (B : Backend β) (capacity blockSize : ℕ) where
  raw : β → ℕ → Bytes
  fault : Exception → Prop
  getInternal : ∀ f location, location < capacity → Triple (fun b => raw b = f) (B.getInternal location)
    (fun r b => r = f location ∧ raw b = f) (fun e b => fault e ∧ raw b = f)
  setInternal : ∀ f location buffer, location < capacity → buffer.length = blockSize →
    Triple (fun b => raw b = f) (B.setInternal location buffer) (fun _ b => raw b = Function.update f location buffer)
      (fun e b => fault e ∧ (raw b = f ∨ raw b = Function.update f location buffer))
  getInternalBatch : ∀ get, B.getInternalBatch = some get → ∀ f locations response, (∀ ℓ ∈ locations, ℓ < capacity) →
    Triple (fun b => raw b = f) (get locations response) (fun r b => r = response ++ locations.map f ∧ raw b = f)
      (fun e b => fault e ∧ raw b = f)
  setInternalBatch : ∀ set, B.setInternalBatch = some set → ∀ f (writes : List (ℕ × Bytes)),
    (∀ w ∈ writes, w.1 < capacity ∧ w.2.length = blockSize) →
    Triple (fun b => raw b = f) (set writes) (fun _ b => raw b = writeAll f writes)
      (fun e b => fault e ∧ ∃ done, done.Sublist writes ∧ raw b = writeAll f done)

theorem BlockArray.read_write {capacity blockSize : ℕ} (blocks : BlockArray capacity blockSize) {location : ℕ}
    {raw : Bytes} (hl : location < capacity) (hr : raw.length = blockSize) :
    (blocks.write location raw).read = Function.update blocks.read location raw := by
  funext ℓ
  have hget : blocks[location]? = some blocks[location] := Vector.getElem?_eq_getElem hl
  unfold BlockArray.write
  rw [hget]
  simp only [BlockArray.read, Function.update_apply]
  split_ifs with h
  · subst h
    simp [hl, Buffer.overwrite_val _ hr]
  · rw [Vector.getElem?_setIfInBounds_ne (Ne.symm h)]

theorem inMemoryBackend_getInternal (capacity blockSize location : ℕ) :
    (inMemoryBackend capacity blockSize).getInternal location = (do return (← Prog.read).read location) := rfl

theorem inMemoryBackend_setInternal (capacity blockSize location : ℕ) (raw : Bytes) :
    (inMemoryBackend capacity blockSize).setInternal location raw =
      Prog.modify fun blocks => blocks.write location raw := rfl

/-- the in-memory provider is lawful and never throws -/
def inMemoryBackend_lawful (capacity blockSize : ℕ) : LawfulBackend (inMemoryBackend capacity blockSize) capacity blockSize
    where
  raw := BlockArray.read
  fault _ := False
  getInternal f location _ := by
    rw [inMemoryBackend_getInternal]
    refine Triple.bind (Q := fun b s => BlockArray.read b = f ∧ BlockArray.read s = f) ?_ fun b => ?_
    · exact Triple.read fun s hs => ⟨hs, hs⟩
    · exact Triple.pure fun s hs => ⟨by rw [hs.1], hs.2⟩
  setInternal f location buffer hl hb := by
    rw [inMemoryBackend_setInternal]
    exact Triple.modify fun s hs => by rw [BlockArray.read_write s hl hb, hs]
  getInternalBatch _ h := by simp [inMemoryBackend] at h
  setInternalBatch _ h := by simp [inMemoryBackend] at h

/-! ## The codec -/

namespace StorageAdapter

variable {β : Type} (S : StorageAdapter β)

/-- a bucket as the storage returns it: with its payloads padded -/
def stored (b : Bucket) : Bucket := b.map fun x => (x.1, zeroPad S.userBlockSize x.2)

/-- the bytes of one record -/
def record (b : Block) : Bytes := leBytes 8 b.1 ++ List.replicate (aesBlockSize - 8) 0 ++ zeroPad S.userBlockSize b.2

/-- a request that passes the checks of `set`. The IDs of its blocks are 64-bit integers. -/
structure Accepts (r : ℕ × Bucket) : Prop where
  location_lt : r.1 < S.capacity
  length_eq : r.2.length = S.Z
  data_le : ∀ b ∈ r.2, b.2.length ≤ S.userBlockSize
  id_lt : ∀ b ∈ r.2, b.1 < 2 ^ 64

@[simp] theorem length_stored (b : Bucket) : (S.stored b).length = b.length := by simp [stored]

theorem length_record {b : Block} (h : b.2.length ≤ S.userBlockSize) : (S.record b).length = S.userBlockSize + aesBlockSize := by
  simp [record, length_zeroPad h, aesBlockSize]
  omega

/-- the i-th record of a list of records is cut out by its offset -/
theorem record_at {b : Bucket} (hd : ∀ x ∈ b, x.2.length ≤ S.userBlockSize) (hid : ∀ x ∈ b, x.1 < 2 ^ 64) {i : ℕ}
    (hi : i < b.length) :
    (leNumber (((b.map S.record).flatten.drop (i * (S.userBlockSize + aesBlockSize))).take 8),
      ((b.map S.record).flatten.drop (i * (S.userBlockSize + aesBlockSize) + aesBlockSize)).take
        (S.userBlockSize + aesBlockSize - aesBlockSize)) = (b[i].1, zeroPad S.userBlockSize b[i].2) := by
  have hlen : ∀ c ∈ b.map S.record, c.length = S.userBlockSize + aesBlockSize := by
    intro c hc
    obtain ⟨x, hx, rfl⟩ := List.mem_map.1 hc
    exact S.length_record (hd x hx)
  have hpad := length_zeroPad (hd b[i] (List.getElem_mem hi))
  have hdrop : (b.map S.record).flatten.drop (i * (S.userBlockSize + aesBlockSize)) =
      leBytes 8 b[i].1 ++ (List.replicate (aesBlockSize - 8) 0 ++ (zeroPad S.userBlockSize b[i].2 ++
        ((b.map S.record).drop (i + 1)).flatten)) := by
    rw [drop_flatten hlen, List.drop_eq_getElem_cons (by simpa using hi), List.flatten_cons]
    simp [record]
  have hnum : leNumber (leBytes 8 b[i].1) = b[i].1 := by
    rw [leNumber_leBytes]
    exact Nat.mod_eq_of_lt (hid _ (List.getElem_mem hi))
  rw [← List.drop_drop, hdrop, List.take_left' (length_leBytes 8 _), hnum, ← List.append_assoc (leBytes 8 b[i].1),
    List.drop_left' (by simp [aesBlockSize]), Nat.add_sub_cancel, List.take_left' hpad]

/-- **The codec round trip.** The encryption of an accepted bucket has the size of a stored bucket and decodes to the
bucket with its payloads padded. -/
theorem decodeBucket_record (hc : S.crypto.Lawful) {b : Bucket} (hlen : b.length = S.Z)
    (hd : ∀ x ∈ b, x.2.length ≤ S.userBlockSize) (hid : ∀ x ∈ b, x.1 < 2 ^ 64) {iv : Bytes}
    (hiv : iv.length = aesBlockSize) :
    ∃ raw, encrypt S.crypto S.key iv (b.map S.record).flatten iv .encrypt = .ok raw ∧ raw.length = S.blockSize ∧
      S.decodeBucket raw = .ok (S.stored b) := by
  have hrec : ∀ c ∈ b.map S.record, c.length = S.userBlockSize + aesBlockSize := by
    intro c hc
    obtain ⟨x, hx, rfl⟩ := List.mem_map.1 hc
    exact S.length_record (hd x hx)
  have hZ : 0 < S.Z := Nat.pos_of_ne_zero S.Z_ne_zero
  have hflat : (b.map S.record).flatten.length = S.Z * (S.userBlockSize + aesBlockSize) := by
    rw [length_flatten hrec, List.length_map, hlen]
  have hpos : (b.map S.record).flatten.length ≠ 0 := by
    rw [hflat]
    exact Nat.mul_ne_zero hZ.ne' (by simp [aesBlockSize])
  have hmul : (b.map S.record).flatten.length % aesBlockSize = 0 := by
    rw [hflat, Nat.mul_mod, Nat.add_mod, S.whole_blocks]
    simp
  obtain ⟨cipher, he, hcl, hdec⟩ := decrypt_encrypt hc S.key_length hiv hpos hmul iv
  refine ⟨iv ++ cipher, he, ?_, ?_⟩
  · rw [List.length_append, hiv, hcl, hflat, AbsStorageAdapter.blockSize, Nat.mul_comm, Nat.add_comm]
  · have hdiv : (b.map S.record).flatten.length / S.Z = S.userBlockSize + aesBlockSize := by
      rw [hflat, Nat.mul_div_cancel_left _ hZ]
    simp only [decodeBucket, List.take_left' hiv, List.drop_left' hiv, hdec, bind, Except.bind, pure, Except.pure, hdiv]
    congr 1
    apply List.ext_getElem
    · simp [stored, hlen]
    · intro i h1 h2
      have hi : i < b.length := by simpa [stored] using h2
      simp only [List.getElem_map, List.getElem_range, stored]
      exact S.record_at hd hid hi

/-! ## Downloads and uploads -/

section Transfer

variable {S} (L : LawfulBackend S.backend S.capacity S.blockSize)

/-- the buffers of the provider and the record of calls -/
def RawIs (f : ℕ → Bytes) (calls : List StorageCall) (s : StorageState β) : Prop :=
  L.raw s.backend = f ∧ s.calls = calls

variable {L} {f : ℕ → Bytes} {calls : List StorageCall}

theorem emit_triple {E : Exception → StorageState β → Prop} (supported : Bool) (event : StorageEvent) :
    Triple (RawIs L f calls) (emit supported event) (fun _ => RawIs L f calls) E :=
  Triple.modify fun s hs => by split_ifs <;> exact hs

theorem logCall_triple {E : Exception → StorageState β → Prop} (call : StorageCall) :
    Triple (RawIs L f calls) (logCall call) (fun _ => RawIs L f (calls ++ [call])) E :=
  Triple.modify fun _ hs => ⟨hs.1, by rw [hs.2]⟩

/-- a call of the provider leaves the record of calls alone -/
theorem backend_triple {α : Type} {m : Run β α} {Q : α → (ℕ → Bytes) → Prop} {E : Exception → (ℕ → Bytes) → Prop}
    (h : Triple (fun b => L.raw b = f) m (fun a b => Q a (L.raw b)) (fun e b => E e (L.raw b))) :
    Triple (RawIs L f calls) (Prog.zoom (StorageState.backendLens β) m)
      (fun a s => ∃ f', Q a f' ∧ RawIs L f' calls s) (fun e s => ∃ f', E e f' ∧ RawIs L f' calls s) :=
  (Triple.zoom_frame (StorageState.backendLens β) h (F := fun s => s.calls = calls) fun _ _ hs => hs).conseq
    (fun _ hs => hs) (fun _ _ hs => ⟨_, hs.1, rfl, hs.2⟩) (fun _ _ hs => ⟨_, hs.1, rfl, hs.2⟩)

/-- what a download throws -/
abbrev ReadFault (L : LawfulBackend S.backend S.capacity S.blockSize) (f : ℕ → Bytes) (calls : List StorageCall)
    (e : Exception) (s : StorageState β) : Prop := L.fault e ∧ RawIs L f calls s

theorem getAndRecord_triple {location : ℕ} (hl : location < S.capacity) :
    Triple (RawIs L f calls) (S.getAndRecord location) (fun r s => r = f location ∧ RawIs L f calls s)
      (ReadFault L f calls) := by
  refine ((backend_triple (Q := fun r f' => r = f location ∧ f' = f) (E := fun e f' => L.fault e ∧ f' = f)
    (L.getInternal f location hl)).conseq (fun _ hs => hs) (fun _ _ hs => hs) ?_).bind fun raw => ?_
  · rintro e s ⟨f', ⟨he, rfl⟩, hs⟩
    exact ⟨he, hs⟩
  · refine Triple.exists_pre fun f' => Triple.of_pure fun ⟨hr, hf⟩ => ?_
    subst hf
    exact (emit_triple _ _).bind fun _ => Triple.pure fun s hs => ⟨hr, hs⟩

/-- the loop of the default, from an index on: the locations before it are done -/
theorem getInternalLoop_triple {locations : List ℕ} (hl : ∀ ℓ ∈ locations, ℓ < S.capacity)
    (hn : locations.length < 2 ^ 32) (response : List Bytes) (fuel i : ℕ) (hi : i ≤ locations.length)
    (hfuel : locations.length - i < fuel) :
    Triple (RawIs L f calls)
      (S.getInternalLoop locations fuel i
        (response ++ (locations.take i).map f ++ List.replicate (locations.length - i) []))
      (fun r s => r = response ++ locations.map f ∧ RawIs L f calls s) (ReadFault L f calls) := by
  induction fuel generalizing i with
  | zero => omega
  | succ fuel ih =>
    unfold getInternalLoop
    refine Triple.ite (fun hlt => ?_) (fun hge => ?_)
    · have hloc : locations.getD i 0 = locations[i] := by simp [hlt]
      have hnext : (i + 1) % 2 ^ 32 = i + 1 := Nat.mod_eq_of_lt (by omega)
      have hrest : locations.length - i = locations.length - (i + 1) + 1 := by omega
      apply (getAndRecord_triple (by rw [hloc]; exact hl _ (List.getElem_mem hlt))).bind
      intro raw
      apply Triple.of_pure
      intro hraw
      rw [hloc] at hraw
      -- the slot that is filled is the first of the empty ones
      have hset : (response ++ (locations.take i).map f ++ List.replicate (locations.length - i) []).set
          ((response ++ (locations.take i).map f ++ List.replicate (locations.length - i) ([] : Bytes)).length -
            locations.length + i) raw =
          response ++ (locations.take (i + 1)).map f ++ List.replicate (locations.length - (i + 1)) [] := by
        have hslot : (response ++ (locations.take i).map f ++ List.replicate (locations.length - i) ([] : Bytes)).length -
            locations.length + i = (response ++ (locations.take i).map f).length := by
          simp
          omega
        rw [hslot, List.set_append_right _ _ (le_refl _), Nat.sub_self, hrest, List.replicate_succ, List.set_cons_zero,
          List.take_succ_eq_append_getElem hlt, List.map_append, hraw]
        simp
      rw [hset, hnext]
      exact ih (i + 1) hlt (by omega)
    · have hend : i = locations.length := by omega
      refine Triple.pure fun s hs => ⟨?_, hs⟩
      simp [hend]

/-- the number of locations of a download that ends: where the provider leaves batches to the default, no batch may be as
long as the range of an `unsigned int` -/
def Ends (S : StorageAdapter β) (n : ℕ) : Prop :=
  S.backend.getInternalBatch.isSome ∨ n < 2 ^ 32 ∨ 0 < S.batchLimit ∧ S.batchLimit < 2 ^ 32

theorem ends_of_lt {n : ℕ} (h : n < 2 ^ 32) : S.Ends n := Or.inr (Or.inl h)

/-- with fewer locations it ends, too -/
theorem Ends.mono {n m : ℕ} (h : S.Ends n) (hm : m ≤ n) : S.Ends m := h.imp_right fun h => h.imp_left hm.trans_lt

theorem getInternalBatch_triple {locations : List ℕ} (hl : ∀ ℓ ∈ locations, ℓ < S.capacity)
    (hn : S.backend.getInternalBatch.isSome ∨ locations.length < 2 ^ 32) (response : List Bytes) :
    Triple (RawIs L f calls) (S.getInternalBatch locations response)
      (fun r s => r = response ++ locations.map f ∧ RawIs L f calls s) (ReadFault L f calls) := by
  unfold getInternalBatch
  cases hget : S.backend.getInternalBatch with
  | some get =>
    refine (backend_triple (Q := fun r f' => r = response ++ locations.map f ∧ f' = f)
      (E := fun e f' => L.fault e ∧ f' = f) (L.getInternalBatch get hget f locations response hl)).conseq
      (fun _ hs => hs) ?_ ?_
    · rintro r s ⟨f', ⟨hr, rfl⟩, hs⟩
      exact ⟨hr, hs⟩
    · rintro e s ⟨f', ⟨he, rfl⟩, hs⟩
      exact ⟨he, hs⟩
  | none =>
    have hlt : locations.length < 2 ^ 32 := hn.resolve_left (by simp [hget])
    have hloop : Triple (RawIs L f calls) _ _ _ := getInternalLoop_triple hl hlt response (locations.length + 1) 0
      (Nat.zero_le _) (by omega)
    simpa using hloop

theorem getAndRecordBatch_triple {locations : List ℕ} (hl : ∀ ℓ ∈ locations, ℓ < S.capacity)
    (hn : S.backend.getInternalBatch.isSome ∨ locations.length < 2 ^ 32) (response : List Bytes) :
    Triple (RawIs L f calls) (S.getAndRecordBatch locations response)
      (fun r s => r = response ++ locations.map f ∧ RawIs L f calls s) (ReadFault L f calls) := by
  apply (getInternalBatch_triple hl hn response).bind
  intro raws
  apply Triple.of_pure
  intro hr
  exact (emit_triple _ _).bind fun _ => Triple.pure fun s hs => ⟨hr, hs⟩

theorem getSlices_triple {locations : List ℕ} (hl : ∀ ℓ ∈ locations, ℓ < S.capacity) (hb : 0 < S.batchLimit)
    (hn : S.Ends locations.length) (pointer : ℕ) (response : List Bytes) :
    Triple (RawIs L f calls) (S.getSlices locations pointer response)
      (fun r s => r = response ++ (locations.drop pointer).map f ∧ RawIs L f calls s) (ReadFault L f calls) := by
  induction hlen : locations.length - pointer using Nat.strong_induction_on generalizing pointer response with
  | _ n ih =>
    rw [getSlices]
    refine Triple.ite (fun h => ?_) (fun h => ?_)
    · have hslice : ∀ ℓ ∈ (locations.drop pointer).take S.batchLimit, ℓ < S.capacity :=
        fun ℓ hm => hl ℓ (List.mem_of_mem_drop (List.mem_of_mem_take hm))
      have hshort : S.backend.getInternalBatch.isSome ∨ ((locations.drop pointer).take S.batchLimit).length < 2 ^ 32 := by
        apply hn.imp_right
        intro hn
        rw [List.length_take, List.length_drop]
        omega
      apply (getAndRecordBatch_triple hslice hshort response).bind
      intro raws
      apply Triple.of_pure
      intro hr
      refine (ih _ (by omega) (pointer + S.batchLimit) raws rfl).post fun r s hs => ⟨?_, hs.2⟩
      rw [hs.1, hr, List.append_assoc, ← List.map_append, ← List.drop_drop, List.take_append_drop]
    · refine Triple.pure fun s hs => ⟨?_, hs⟩
      rw [List.drop_eq_nil_of_le (by omega)]
      simp

/-- a single item, one batch or many: the download returns the buffers in order -/
theorem download_triple {locations : List ℕ} (hl : ∀ ℓ ∈ locations, ℓ < S.capacity) (hn : S.Ends locations.length) :
    Triple (RawIs L f calls) (S.download locations) (fun r s => r = locations.map f ∧ RawIs L f calls s)
      (ReadFault L f calls) := by
  unfold download
  split
  · apply (getAndRecord_triple (hl _ List.mem_cons_self)).bind
    intro raw
    apply Triple.of_pure
    intro hr
    exact Triple.pure fun s hs => ⟨by rw [hr]; rfl, hs⟩
  · refine Triple.ite (fun h => ?_) fun h => ?_
    · have hshort : S.backend.getInternalBatch.isSome ∨ locations.length < 2 ^ 32 := by
        apply hn.imp_right
        intro hn
        omega
      have hbatch : Triple (RawIs L f calls) _ _ _ := getAndRecordBatch_triple hl hshort []
      simpa using hbatch
    · have hslices : Triple (RawIs L f calls) _ _ _ := getSlices_triple hl (by omega) hn 0 []
      simpa using hslices

/-- **A download that does not end.** The index of the default runs through the range of an `unsigned int` for ever: with no
fuel the loop returns. -/
theorem getInternalLoop_diverges {P : StorageState β → Prop} {E : Exception → StorageState β → Prop} {locations : List ℕ}
    (hn : 2 ^ 32 ≤ locations.length) (hitem : ∀ ℓ ∈ locations, Triple P (S.getAndRecord ℓ) (fun _ => P) E)
    (fuel i : ℕ) (hi : i < 2 ^ 32) (response : List Bytes) :
    Triple P (S.getInternalLoop locations fuel i response) (fun _ _ => False) (fun e s => e = .diverges ∨ E e s) := by
  induction fuel generalizing i response with
  | zero => exact Triple.throw fun _ _ => Or.inl rfl
  | succ fuel ih =>
    have hlt : i < locations.length := hi.trans_le hn
    have hmem : locations.getD i 0 ∈ locations := by simp [hlt]
    unfold getInternalLoop
    rw [if_pos hlt]
    apply ((hitem _ hmem).conseq (fun _ hs => hs) (fun _ _ hs => hs) fun _ _ hs => Or.inr hs).bind
    intro raw
    exact ih _ (Nat.mod_lt _ (by norm_num)) _

theorem getAndRecordBatch_diverges {P : StorageState β → Prop} {E : Exception → StorageState β → Prop}
    (hget : S.backend.getInternalBatch = none) {locations : List ℕ} (hn : 2 ^ 32 ≤ locations.length)
    (hitem : ∀ ℓ ∈ locations, Triple P (S.getAndRecord ℓ) (fun _ => P) E) (response : List Bytes) :
    Triple P (S.getAndRecordBatch locations response) (fun _ _ => False) (fun e s => e = .diverges ∨ E e s) := by
  refine Triple.bind (Q := fun _ _ => False) ?_ fun _ => fun _ _ h => h.elim
  unfold getInternalBatch
  rw [hget]
  exact getInternalLoop_diverges hn hitem _ 0 (by norm_num) _

theorem download_diverges {P : StorageState β → Prop} {E : Exception → StorageState β → Prop} {locations : List ℕ}
    (hn : ¬ S.Ends locations.length) (hitem : ∀ ℓ ∈ locations, Triple P (S.getAndRecord ℓ) (fun _ => P) E) :
    Triple P (S.download locations) (fun _ _ => False) (fun e s => e = .diverges ∨ E e s) := by
  simp only [Ends, not_or, not_and, not_lt, Bool.not_eq_true, Option.isSome_eq_false_iff, Option.isNone_iff_eq_none] at hn
  obtain ⟨hget, hlong, hlimit⟩ := hn
  unfold download
  split
  · simp at hlong
  · apply Triple.ite (fun _ => getAndRecordBatch_diverges hget hlong hitem _)
    intro h
    -- the first of the batches is too long already
    have hpos : 0 < S.batchLimit := by omega
    rw [getSlices, if_pos ⟨by omega, hpos⟩]
    refine (getAndRecordBatch_diverges hget ?_ (fun ℓ hℓ => hitem ℓ ?_) _).bind fun _ => fun _ _ h => h.elim
    · rw [List.drop_zero, List.length_take]
      have := hlimit hpos
      omega
    · exact List.mem_of_mem_drop (List.mem_of_mem_take hℓ)

/-- what an upload throws: some of the requests were written, each whole -/
abbrev WriteFault (L : LawfulBackend S.backend S.capacity S.blockSize) (f : ℕ → Bytes) (calls : List StorageCall)
    (writes : List (ℕ × Bytes)) (e : Exception) (s : StorageState β) : Prop :=
  L.fault e ∧ ∃ done, done.Sublist writes ∧ RawIs L (writeAll f done) calls s

/-- a write that passes the checks: to a buffer of the provider, of its size -/
def Fits (S : StorageAdapter β) (w : ℕ × Bytes) : Prop := w.1 < S.capacity ∧ w.2.length = S.blockSize

theorem setAndRecord_triple {w : ℕ × Bytes} (hw : Fits S w) :
    Triple (RawIs L f calls) (S.setAndRecord w.1 w.2) (fun _ => RawIs L (writeAll f [w]) calls)
      (WriteFault L f calls [w]) := by
  refine ((backend_triple (Q := fun _ f' => f' = writeAll f [w])
    (E := fun e f' => L.fault e ∧ (f' = f ∨ f' = writeAll f [w]))
    (L.setInternal f w.1 w.2 hw.1 hw.2)).conseq (fun _ hs => hs) (fun _ _ hs => hs) ?_).bind fun _ => ?_
  · rintro e s ⟨f', ⟨he, rfl | rfl⟩, hs⟩
    · exact ⟨he, [], List.nil_sublist _, hs⟩
    · exact ⟨he, [w], List.Sublist.refl _, hs⟩
  · exact Triple.exists_pre fun f' => Triple.of_pure fun hf => hf ▸ emit_triple _ _

theorem setInternalBatch_triple {writes : List (ℕ × Bytes)} (hw : ∀ w ∈ writes, Fits S w) :
    Triple (RawIs L f calls) (S.setInternalBatch writes) (fun _ => RawIs L (writeAll f writes) calls)
      (WriteFault L f calls writes) := by
  unfold setInternalBatch
  cases hset : S.backend.setInternalBatch with
  | some set =>
    refine (backend_triple (Q := fun _ f' => f' = writeAll f writes)
      (E := fun e f' => L.fault e ∧ ∃ done, done.Sublist writes ∧ f' = writeAll f done)
      (L.setInternalBatch set hset f writes hw)).conseq (fun _ hs => hs) ?_ ?_
    · rintro _ s ⟨f', rfl, hs⟩
      exact hs
    · rintro e s ⟨f', ⟨he, done, hd, rfl⟩, hs⟩
      exact ⟨he, done, hd, hs⟩
  | none =>
    refine ((Triple.forM (E := WriteFault L f calls writes)
      (fun rest s => ∃ done, done ++ rest = writes ∧ RawIs L (writeAll f done) calls s) ?_).pre
      fun s hs => ⟨[], rfl, hs⟩).post ?_
    · intro w rest hr
      apply Triple.exists_pre
      intro done
      apply Triple.of_pure
      intro hdone
      refine (setAndRecord_triple (hw w (hr.subset List.mem_cons_self))).conseq (fun _ hs => hs) ?_ ?_
      · intro _ s hs
        exact ⟨done ++ [w], by simpa using hdone, by rwa [writeAll_append]⟩
      · rintro e s ⟨he, done', hd', hs⟩
        refine ⟨he, done ++ done', ?_, by rwa [writeAll_append]⟩
        rw [← hdone]
        exact (List.Sublist.refl done).append (hd'.trans (List.singleton_sublist.2 List.mem_cons_self))
    · rintro _ s ⟨done, hd, hs⟩
      rw [List.append_nil] at hd
      exact hd ▸ hs

theorem setAndRecordBatch_triple {writes : List (ℕ × Bytes)} (hw : ∀ w ∈ writes, Fits S w) :
    Triple (RawIs L f calls) (S.setAndRecordBatch writes) (fun _ => RawIs L (writeAll f writes) calls)
      (WriteFault L f calls writes) :=
  (setInternalBatch_triple hw).bind fun _ => emit_triple _ _

theorem setSlices_triple {writes : List (ℕ × Bytes)} (hw : ∀ w ∈ writes, Fits S w) (hb : 0 < S.batchLimit)
    (pointer : ℕ) :
    Triple (RawIs L f calls) (S.setSlices writes pointer) (fun _ => RawIs L (writeAll f (writes.drop pointer)) calls)
      (WriteFault L f calls (writes.drop pointer)) := by
  induction hn : writes.length - pointer using Nat.strong_induction_on generalizing pointer f with
  | _ n ih =>
    rw [setSlices]
    have hslices : (writes.drop pointer).take S.batchLimit ++ writes.drop (pointer + S.batchLimit) =
        writes.drop pointer := by rw [← List.drop_drop, List.take_append_drop]
    refine Triple.ite (fun h => ?_) (fun h => ?_)
    · have hslice : ∀ w ∈ (writes.drop pointer).take S.batchLimit, Fits S w :=
        fun w hm => hw w (List.mem_of_mem_drop (List.mem_of_mem_take hm))
      refine ((setAndRecordBatch_triple hslice).conseq (fun _ hs => hs) (fun _ _ hs => hs) ?_).bind fun _ => ?_
      · rintro e s ⟨he, done, hd, hs⟩
        exact ⟨he, done, hd.trans (List.take_sublist _ _), hs⟩
      · refine (ih _ (by omega) (pointer + S.batchLimit) rfl).conseq (fun _ hs => hs) ?_ ?_
        · intro _ s hs
          rwa [← writeAll_append, hslices] at hs
        · rintro e s ⟨he, done, hd, hs⟩
          refine ⟨he, (writes.drop pointer).take S.batchLimit ++ done, ?_, by rwa [writeAll_append]⟩
          have hsub := (List.Sublist.refl ((writes.drop pointer).take S.batchLimit)).append hd
          rwa [hslices] at hsub
    · apply Triple.pure
      intro s hs
      rw [List.drop_eq_nil_of_le (by omega)]
      exact hs

/-- a single item, one batch or many: the upload writes the requests in order -/
theorem upload_triple {writes : List (ℕ × Bytes)} (hw : ∀ w ∈ writes, Fits S w) :
    Triple (RawIs L f calls) (S.upload writes) (fun _ => RawIs L (writeAll f writes) calls)
      (WriteFault L f calls writes) := by
  unfold upload
  split
  · exact setAndRecord_triple (hw _ List.mem_cons_self)
  · exact Triple.ite (fun _ => setAndRecordBatch_triple hw) fun h => setSlices_triple hw (by omega) 0

end Transfer

/-! ## Requests -/

section Requests

variable {S} (L : LawfulBackend S.backend S.capacity S.blockSize)

/-- the buckets that the stored bytes stand for. There are none past the capacity. -/
def Holds (g : ℕ → Bucket) (calls : List StorageCall) (s : StorageState β) : Prop :=
  (∀ ℓ < S.capacity, S.decodeBucket (L.raw s.backend ℓ) = .ok (g ℓ)) ∧ (∀ ℓ, S.capacity ≤ ℓ → g ℓ = []) ∧
    s.calls = calls

variable {L} {g : ℕ → Bucket} {calls : List StorageCall}

/-- what `get` throws for valid locations: the provider failed, and nothing changed -/
abbrev GetFault (L : LawfulBackend S.backend S.capacity S.blockSize) (g : ℕ → Bucket) (calls : List StorageCall)
    (e : Exception) (s : StorageState β) : Prop := L.fault e ∧ Holds L g calls s

theorem checkCapacity_triple {P : StorageState β → Prop} {E : Exception → StorageState β → Prop} {location : ℕ}
    (h : location < S.capacity) : Triple P (S.checkCapacity location) (fun _ => P) E :=
  Triple.ite (fun h' => absurd h (not_lt.2 h')) fun _ => Triple.pure fun _ hs => hs

/-- locations of the storage pass the check -/
theorem checkCapacities_pass {P : StorageState β → Prop} {E : Exception → StorageState β → Prop} {locations : List ℕ}
    (hl : ∀ ℓ ∈ locations, ℓ < S.capacity) : Triple P (locations.forM S.checkCapacity) (fun _ => P) E :=
  Triple.forM (fun _ => P) fun ℓ _ hm => checkCapacity_triple (hl ℓ (hm.subset List.mem_cons_self))

/-- locations that pass the check are locations of the storage -/
theorem checkCapacities_triple {P : StorageState β → Prop} (locations : List ℕ) :
    Triple P (locations.forM S.checkCapacity) (fun _ t => (∀ ℓ ∈ locations, ℓ < S.capacity) ∧ P t)
      (fun e t => (∃ ℓ, e = .idOutOfBound ℓ S.capacity) ∧ P t) := by
  refine ((Triple.forM (fun rest t => (∀ ℓ ∈ locations, ℓ ∈ rest ∨ ℓ < S.capacity) ∧ P t) ?_).pre
    fun t ht => ⟨fun ℓ hℓ => Or.inl hℓ, ht⟩).post fun _ t ht => ⟨fun ℓ hℓ => ?_, ht.2⟩
  · intro ℓ rest _
    refine Triple.ite (fun _ => Triple.throw fun t ht => ⟨⟨ℓ, rfl⟩, ht.2⟩) fun hlt => Triple.pure fun t ht => ⟨fun k hk => ?_, ht.2⟩
    rcases ht.1 k hk with hmem | hk
    · rcases List.mem_cons.1 hmem with rfl | hmem
      · exact Or.inr (not_le.1 hlt)
      · exact Or.inl hmem
    · exact Or.inr hk
  · exact (ht.1 ℓ hℓ).resolve_left List.not_mem_nil

theorem mapM_decodeBucket {f : ℕ → Bytes} {locations : List ℕ} (h : ∀ ℓ ∈ locations, S.decodeBucket (f ℓ) = .ok (g ℓ)) :
    (locations.map f).mapM S.decodeBucket = .ok (locations.map g) := by
  induction locations with
  | nil => rfl
  | cons ℓ locations ih =>
    rw [List.map_cons, List.mapM_cons, h ℓ List.mem_cons_self, ih fun ℓ hm => h ℓ (List.mem_cons_of_mem _ hm)]
    rfl

/-- buckets that were decoded one after the other -/
theorem of_mapM_decodeBucket {raws : List Bytes} {buckets : List Bucket} (h : raws.mapM S.decodeBucket = .ok buckets) :
    List.Forall₂ (fun raw b => S.decodeBucket raw = .ok b) raws buckets := by
  induction raws generalizing buckets with
  | nil =>
    cases h
    exact List.Forall₂.nil
  | cons raw raws ih =>
    rw [List.mapM_cons] at h
    cases hb : S.decodeBucket raw with
    | error e =>
      rw [hb] at h
      cases h
    | ok b =>
      cases hbs : raws.mapM S.decodeBucket with
      | error e =>
        rw [hb, hbs] at h
        cases h
      | ok bs =>
        rw [hb, hbs] at h
        cases h
        exact List.Forall₂.cons hb (ih hbs)

/-- what `get` returns for locations whose bytes decode, at the level of the bytes -/
theorem get_decodes {f : ℕ → Bytes} {locations : List ℕ} (hl : ∀ ℓ ∈ locations, ℓ < S.capacity)
    (hn : S.Ends locations.length) (hdec : ∀ ℓ ∈ locations, S.decodeBucket (f ℓ) = .ok (g ℓ)) :
    Triple (RawIs L f calls) (S.get locations)
      (fun r s => r = locations.flatMap g ∧ RawIs L f (calls ++ [.get locations]) s)
      (ReadFault L f (calls ++ [.get locations])) := by
  unfold get
  apply (checkCapacities_pass hl).bind
  intro _
  apply (logCall_triple (.get locations)).bind
  intro _
  apply (download_triple hl hn).bind
  intro raws
  apply Triple.of_pure
  intro hr
  subst hr
  rw [mapM_decodeBucket hdec]
  refine Triple.bind (Q := fun b s' => b = locations.map g ∧ RawIs L f (calls ++ [.get locations]) s')
    (Triple.ofExcept (fun a s' ha hs => ⟨(Except.ok.inj ha).symm, hs⟩) fun e s' he => by cases he) fun b => ?_
  exact Triple.of_pure fun hb => Triple.pure fun s' hs => ⟨by rw [hb]; rfl, hs⟩

theorem get_diverges {P : StorageState β → Prop} {locations : List ℕ} (hn : ¬ S.Ends locations.length) :
    Triple P (S.get locations) (fun _ _ => False) (fun _ _ => True) := by
  have hitem : ∀ ℓ ∈ locations, Triple (fun _ => True) (S.getAndRecord ℓ) (fun _ _ => True) (fun _ _ => True) :=
    fun ℓ _ => Triple.trivial _ _
  have hdownload := (download_diverges hn hitem).conseq (fun _ h => h) (fun _ _ h => h) fun _ _ _ => trivial
  unfold get
  apply (Triple.trivial P _).bind
  intro _
  apply (Triple.trivial _ _).bind
  intro _
  apply hdownload.bind
  intro _
  exact fun _ _ h => h.elim

/-- **`get`.** The blocks of the buckets of its locations, in order; one call is recorded, and nothing changes. -/
theorem get_triple {locations : List ℕ} (hl : ∀ ℓ ∈ locations, ℓ < S.capacity) (hn : S.Ends locations.length) :
    Triple (Holds L g calls) (S.get locations)
      (fun r s => r = locations.flatMap g ∧ Holds L g (calls ++ [.get locations]) s)
      (GetFault L g (calls ++ [.get locations])) := by
  intro w s ⟨hdec, hnil, hcalls⟩
  have hholds : ∀ {calls' s'}, RawIs L (L.raw s.backend) calls' s' → Holds L g calls' s' :=
    fun h => ⟨fun ℓ hℓ => by rw [h.1]; exact hdec ℓ hℓ, hnil, h.2⟩
  have hget : Triple (RawIs L (L.raw s.backend) calls) (S.get locations) _ _ :=
    get_decodes hl hn fun ℓ hℓ => hdec ℓ (hl ℓ hℓ)
  exact (hget.conseq (fun _ h => h) (fun _ _ h => ⟨h.1, hholds h.2⟩) fun _ _ h => ⟨h.1, hholds h.2⟩) w s ⟨rfl, hcalls⟩

/-- what `set` makes of an accepted request -/
def Encodes (S : StorageAdapter β) (r : ℕ × Bucket) (w : ℕ × Bytes) : Prop :=
  w.1 = r.1 ∧ w.2.length = S.blockSize ∧ S.decodeBucket w.2 = .ok (S.stored r.2)

theorem encodeBlock_triple {P : StorageState β → Prop} {E : Exception → StorageState β → Prop} {b : Block}
    (h : b.2.length ≤ S.userBlockSize) : Triple P (S.encodeBlock b) (fun r s => P s ∧ r = S.record b) E :=
  Triple.bind (Q := fun _ => P)
    (Triple.ite (fun h' => absurd h (not_le.2 h')) fun _ => Triple.pure fun _ hs => hs) fun _ =>
    Triple.pure fun _ hs => ⟨hs, rfl⟩

theorem encodeRequest_triple (hc : S.crypto.Lawful) {P : StorageState β → Prop}
    {E : Exception → StorageState β → Prop} {r : ℕ × Bucket} (h : S.Accepts r) :
    Triple P (S.encodeRequest r) (fun w s => P s ∧ Encodes S r w) E := by
  unfold encodeRequest
  apply (checkCapacity_triple h.location_lt).bind
  intro _
  apply Triple.ite (fun h' => absurd h.length_eq h')
  intro _
  apply (Triple.mapM fun b hb => encodeBlock_triple (h.data_le b hb)).bind
  intro records
  refine Triple.pre (P := fun s => records = r.2.map S.record ∧ P s) (Triple.of_pure fun hrec => ?_) fun s hs => ?_
  · apply (getRandomBlock_triple aesBlockSize).bind
    intro iv
    obtain ⟨raw, henc, hlen, hdec⟩ := decodeBucket_record S hc h.length_eq h.data_le h.id_lt iv.2
    rw [hrec, henc]
    refine Triple.bind (Q := fun b s => b = raw ∧ P s)
      (Triple.ofExcept (fun a s ha hs => ⟨(Except.ok.inj ha).symm, hs⟩) fun e s he => by cases he) fun b => ?_
    exact Triple.of_pure fun hb => Triple.pure fun s hs => ⟨hs, rfl, hb ▸ hlen, hb ▸ hdec⟩
  · have hrec : List.Forall₂ (fun r b => r = S.record b) records r.2 := hs.2.flip
    rw [← List.forall₂_map_right_iff, List.forall₂_eq_eq_eq] at hrec
    exact ⟨hrec, hs.1⟩

/-- requests as they are stored -/
def storedRequests (S : StorageAdapter β) (requests : List (ℕ × Bucket)) : List (ℕ × Bucket) :=
  requests.map fun r => (r.1, S.stored r.2)

theorem storedRequests_fst (requests : List (ℕ × Bucket)) :
    (S.storedRequests requests).map Prod.fst = requests.map Prod.fst := by simp [storedRequests]

theorem padBucket_of_le {b : Bucket} (h : ∀ x ∈ b, x.2.length ≤ S.userBlockSize) : S.padBucket b = S.stored b := by
  induction b with
  | nil => rfl
  | cons x b ih =>
    rw [padBucket, if_neg (not_lt.2 (h x List.mem_cons_self)), ih fun y hy => h y (List.mem_cons_of_mem _ hy)]
    rfl

/-- when every request passes, all of the range is padded -/
theorem padRange_of_accepts {requests : List (ℕ × Bucket)} (h : ∀ r ∈ requests, S.Accepts r) :
    S.padRange requests = S.storedRequests requests := by
  induction requests with
  | nil => rfl
  | cons r requests ih =>
    have hr := h r List.mem_cons_self
    have hchecks : ¬ (S.capacity ≤ r.1 ∨ r.2.length ≠ S.Z) := by
      rintro (h | h)
      exacts [absurd hr.location_lt (not_lt.2 h), h hr.length_eq]
    have hdata : ¬ ∃ b ∈ r.2, S.userBlockSize < b.2.length := by
      rintro ⟨b, hb, h⟩
      exact absurd (hr.data_le b hb) (not_le.2 h)
    rw [padRange, if_neg hchecks, if_neg hdata, padBucket_of_le hr.data_le, ih fun r hm => h r (List.mem_cons_of_mem _ hm)]
    rfl

/-- writing encoded buckets is writing buckets -/
theorem holds_writeAll {s s' : StorageState β} (hs : Holds L g calls s) {requests : List (ℕ × Bucket)}
    {writes : List (ℕ × Bytes)} (hr : ∀ r ∈ requests, S.Accepts r) (he : List.Forall₂ (Encodes S) requests writes)
    {calls' : List StorageCall} (h : RawIs L (writeAll (L.raw s.backend) writes) calls' s') :
    Holds L (writeAll g (S.storedRequests requests)) calls' s' := by
  have hgen : ∀ (f : ℕ → Bytes) (g : ℕ → Bucket), (∀ ℓ < S.capacity, S.decodeBucket (f ℓ) = .ok (g ℓ)) →
      (∀ ℓ, S.capacity ≤ ℓ → g ℓ = []) →
      (∀ ℓ < S.capacity, S.decodeBucket (writeAll f writes ℓ) = .ok (writeAll g (S.storedRequests requests) ℓ)) ∧
        ∀ ℓ, S.capacity ≤ ℓ → writeAll g (S.storedRequests requests) ℓ = [] := by
    clear h hs
    induction he with
    | nil => exact fun f g hf hg => ⟨hf, hg⟩
    | @cons r w requests writes hrw _ ih =>
      intro f g hf hg
      refine ih (fun r hm => hr r (List.mem_cons_of_mem _ hm)) (Function.update f w.1 w.2)
        (Function.update g r.1 (S.stored r.2)) (fun ℓ hℓ => ?_) fun ℓ hℓ => ?_
      · simp only [hrw.1, Function.update_apply]
        split_ifs with h
        · exact hrw.2.2
        · exact hf ℓ hℓ
      · have hlt := (hr r List.mem_cons_self).location_lt
        rw [Function.update_of_ne (by omega)]
        exact hg ℓ hℓ
  obtain ⟨h1, h2⟩ := hgen _ g hs.1 hs.2.1
  exact ⟨fun ℓ hℓ => by rw [h.1]; exact h1 ℓ hℓ, h2, h.2⟩

/-- a `set` recorded for requests: one buffer of a bucket's size for each -/
def IsSetOf (S : StorageAdapter β) (requests : List (ℕ × Bucket)) (call : StorageCall) : Prop :=
  ∃ writes, call = .set writes ∧ writes.map Prod.fst = requests.map Prod.fst ∧ ∀ w ∈ writes, w.2.length = S.blockSize

theorem isSetOf_of_encodes {requests : List (ℕ × Bucket)} {writes : List (ℕ × Bytes)}
    (h : List.Forall₂ (Encodes S) requests writes) : IsSetOf S requests (.set writes) := by
  refine ⟨writes, rfl, ?_, fun w hw => ?_⟩
  · rw [← List.forall₂_eq_eq_eq, List.forall₂_map_left_iff, List.forall₂_map_right_iff]
    exact h.flip.imp fun _ _ h => h.1
  · obtain ⟨r, _, hrw⟩ := exists_of_mem_right h hw
    exact hrw.2.1

/-- what `set` sends for accepted requests, at the level of the bytes -/
theorem set_encodes (hc : S.crypto.Lawful) {requests : List (ℕ × Bucket)} (hr : ∀ r ∈ requests, S.Accepts r)
    (f : ℕ → Bytes) :
    Triple (RawIs L f calls) (S.set requests)
      (fun _ s => ∃ writes, List.Forall₂ (Encodes S) requests writes ∧
        RawIs L (writeAll f writes) (calls ++ [.set writes]) s)
      (fun e s => L.fault e ∧ ∃ writes done, List.Forall₂ (Encodes S) requests writes ∧ done.Sublist writes ∧
        RawIs L (writeAll f done) (calls ++ [.set writes]) s) := by
  unfold set
  apply (Triple.mapM fun r hm => encodeRequest_triple hc (hr r hm)).bind
  intro writes
  refine Triple.pre (P := fun s' => List.Forall₂ (Encodes S) requests writes ∧ RawIs L f calls s')
    (Triple.of_pure fun henc => ?_) fun s' hs' => ⟨hs'.2, hs'.1⟩
  have hfits : ∀ w ∈ writes, Fits S w := by
    intro w hw
    obtain ⟨r, hm, hrw⟩ := exists_of_mem_right henc hw
    exact ⟨hrw.1 ▸ (hr r hm).location_lt, hrw.2.1⟩
  refine (logCall_triple (.set writes)).bind fun _ => (upload_triple hfits).conseq (fun _ hs' => hs') ?_ ?_
  · exact fun _ s' hs' => ⟨writes, henc, hs'⟩
  · rintro e s' ⟨he, done, hd, hs'⟩
    exact ⟨he, writes, done, henc, hd, hs'⟩

/-- what `set` throws for accepted requests: the provider failed, and some requests were written, each whole -/
abbrev SetFault (L : LawfulBackend S.backend S.capacity S.blockSize) (g : ℕ → Bucket) (calls : List StorageCall)
    (requests : List (ℕ × Bucket)) (e : Exception) (s : StorageState β) : Prop :=
  L.fault e ∧ ∃ done call, done.Sublist requests ∧ IsSetOf S requests call ∧
    Holds L (writeAll g (S.storedRequests done)) (calls ++ [call]) s

/-- **`set`.** The buckets of its requests are replaced in order; one call is recorded, with buffers of equal size. -/
theorem set_triple (hc : S.crypto.Lawful) {requests : List (ℕ × Bucket)} (hr : ∀ r ∈ requests, S.Accepts r) :
    Triple (Holds L g calls) (S.set requests)
      (fun _ s => ∃ call, IsSetOf S requests call ∧ Holds L (writeAll g (S.storedRequests requests)) (calls ++ [call]) s)
      (SetFault L g calls requests) := by
  intro w s hs
  refine ((set_encodes hc hr (L.raw s.backend)).conseq (fun _ hs' => hs') ?_ ?_) w s ⟨rfl, hs.2.2⟩
  · rintro _ s' ⟨writes, henc, hs'⟩
    exact ⟨_, isSetOf_of_encodes henc, holds_writeAll hs hr henc hs'⟩
  · rintro e s' ⟨he, writes, done, henc, hd, hs'⟩
    obtain ⟨done', hd', henc'⟩ := exists_sublist_forall₂ henc hd
    exact ⟨he, done', _, hd', isSetOf_of_encodes henc,
      holds_writeAll hs (fun r hm => hr r (hd'.subset hm)) henc' hs'⟩

/-- a bucket of Z empty blocks, as `fillWithZeroes` leaves it -/
def emptyBucket (S : StorageAdapter β) : Bucket := List.replicate S.Z (ulongMax, zeroPad S.userBlockSize [])

/-- **`fillWithZeroes`.** Whatever the provider held, every bucket is empty afterwards. -/
theorem fillWithZeroes_triple (hc : S.crypto.Lawful) {P : StorageState β → Prop} :
    Triple P S.fillWithZeroes
      (fun _ s => ∃ calls, Holds L (fun ℓ => if ℓ < S.capacity then S.emptyBucket else []) calls s)
      (fun e _ => L.fault e) := by
  intro w s _
  have hr : ∀ r ∈ (List.range S.capacity).map fun i => (i, List.replicate S.Z (ulongMax, ([] : Bytes))), S.Accepts r := by
    intro r hm
    obtain ⟨i, hi, rfl⟩ := List.mem_map.1 hm
    refine ⟨List.mem_range.1 hi, List.length_replicate, ?_, ?_⟩
    · intro b hb
      rw [List.eq_of_mem_replicate hb]
      exact Nat.zero_le _
    · intro b hb
      rw [List.eq_of_mem_replicate hb]
      norm_num [ulongMax]
  refine ((set_encodes (L := L) hc hr (L.raw s.backend)).conseq (fun _ hs' => hs') ?_ fun e _ he => he.1) w s ⟨rfl, rfl⟩
  rintro _ s' ⟨writes, henc, hs'⟩
  have hkeys : (writes.map Prod.fst).Nodup := by
    obtain ⟨writes', hw, hfst, _⟩ := isSetOf_of_encodes henc
    cases hw
    rw [hfst, List.map_map]
    simpa [Function.comp_def] using List.nodup_range
  refine ⟨_, fun ℓ hℓ => ?_, fun ℓ hℓ => if_neg (not_lt.2 hℓ), hs'.2⟩
  obtain ⟨w', hw', he⟩ := exists_of_mem_right henc.flip (List.mem_map.2 ⟨ℓ, List.mem_range.2 hℓ, rfl⟩)
  have hfst : w'.1 = ℓ := he.1
  have hval : writeAll (L.raw s.backend) writes ℓ = w'.2 := writeAll_of_mem _ _ hkeys (hfst ▸ hw')
  rw [hs'.1, hval, he.2.2]
  simp [stored, emptyBucket, hℓ]

end Requests

end StorageAdapter

end PathOram
