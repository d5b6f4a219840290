/-
Sub-batching: `get` and `set` with a batch limit against one big batch.

- `Slices limit l slices`: consecutive non-empty parts of a list, of at most `limit` elements each.
- `readSlices`, `writeSlices`: the calls of the provider for some slices.
- `download_slices`, `upload_slices`: **what the provider receives** is a list of slices, whatever the provider.
- `get_throws`, `set_throws`: a `get` that `Ends` and every `set` terminate if the methods of the provider do.
- `batching`: over a provider that returns what was last written, the limit changes neither what `get` returns nor what
  `set` leaves, except for lists that are too long for the default batch read.
-/
import PathOram.Trace

namespace PathOram

open Lib

/-- consecutive non-empty parts of a list, of at most `limit` elements each if there is a limit -/
structure Slices {α : Type} (limit : ℕ) (l : List α) (slices : List (List α)) : Prop where
  flatten : slices.flatten = l
  nonempty : ∀ slice ∈ slices, slice ≠ []
  length_le : 0 < limit → ∀ slice ∈ slices, slice.length ≤ limit

section Slices

variable {α : Type} {limit : ℕ} {l : List α}

theorem slices_nil : Slices limit ([] : List α) [] := ⟨rfl, by simp, by simp⟩

theorem slices_single (hl : l ≠ []) (h : limit = 0 ∨ l.length ≤ limit) : Slices limit l [l] where
  flatten := by simp
  nonempty slice hs := by rwa [List.mem_singleton.1 hs]
  length_le hpos slice hs := by
    rw [List.mem_singleton.1 hs]
    omega

/-- the first slice is cut off the front -/
theorem Slices.cons {slices : List (List α)} (hl : l ≠ []) (hpos : 0 < limit) (h : Slices limit (l.drop limit) slices) :
    Slices limit l (l.take limit :: slices) where
  flatten := by rw [List.flatten_cons, h.flatten, List.take_append_drop]
  nonempty slice hs := by
    rcases List.mem_cons.1 hs with rfl | hs
    · rw [Ne, List.take_eq_nil_iff]
      rintro (hzero | hnil)
      · omega
      · exact hl hnil
    · exact h.nonempty slice hs
  length_le hpos slice hs := by
    rcases List.mem_cons.1 hs with rfl | hs
    · exact List.length_take_le _ _
    · exact h.length_le hpos slice hs

/-- slices of a longer list are not one slice of one element -/
theorem Slices.ne_single {slices : List (List α)} (h : Slices limit l slices) (hl : l.length ≠ 1) (a : α) :
    slices ≠ [[a]] := by
  rintro rfl
  apply hl
  rw [← h.flatten]
  rfl

/-- a list cut after every `limit` elements -/
def cut (limit : ℕ) (l : List α) : List (List α) :=
  if 0 < l.length ∧ 0 < limit then l.take limit :: cut limit (l.drop limit) else []
termination_by l.length
decreasing_by
  rw [List.length_drop]
  omega

theorem cut_nil : cut limit ([] : List α) = [] := by
  rw [cut, if_neg (by simp)]

theorem cut_of_pos (hl : 0 < l.length) (hpos : 0 < limit) : cut limit l = l.take limit :: cut limit (l.drop limit) := by
  rw [cut, if_pos ⟨hl, hpos⟩]

theorem cut_slices (hpos : 0 < limit) (l : List α) : Slices limit l (cut limit l) := by
  induction hn : l.length using Nat.strong_induction_on generalizing l with
  | _ n ih =>
    rcases Nat.eq_zero_or_pos l.length with hzero | hl
    · rw [List.length_eq_zero_iff.1 hzero, cut_nil]
      exact slices_nil
    · rw [cut_of_pos hl hpos]
      exact .cons (List.ne_nil_of_length_pos hl) hpos (ih _ (by rw [List.length_drop]; omega) (l.drop limit) rfl)

/-- all slices but the last are full -/
theorem sum_cut (hpos : 0 < limit) (l : List α) {g : ℕ → ℕ} (hg : g 0 = 0) :
    ((cut limit l).map fun slice => g slice.length).sum = l.length / limit * g limit + g (l.length % limit) := by
  induction hn : l.length using Nat.strong_induction_on generalizing l with
  | _ n ih =>
    subst hn
    rcases Nat.lt_or_ge l.length limit with hlt | hge
    · rw [Nat.div_eq_of_lt hlt, Nat.mod_eq_of_lt hlt, Nat.zero_mul, Nat.zero_add]
      rcases Nat.eq_zero_or_pos l.length with hzero | hl
      · rw [List.length_eq_zero_iff.1 hzero, cut_nil, List.length_nil, hg]
        rfl
      · rw [cut_of_pos hl hpos, List.take_of_length_le hlt.le, List.drop_eq_nil_of_le hlt.le, cut_nil]
        simp
    · have hrest := ih _ (by rw [List.length_drop]; omega) (l.drop limit) rfl
      rw [cut_of_pos (hpos.trans_le hge) hpos, List.map_cons, List.sum_cons, hrest, List.length_take, List.length_drop,
        Nat.min_eq_left hge, Nat.div_eq_sub_div hpos hge, Nat.mod_eq_sub_mod hge, Nat.succ_mul]
      omega

/-- the slices that a list is sent in: one, if the limit allows it -/
def slicesOf (limit : ℕ) (l : List α) : List (List α) := if limit = 0 ∨ l.length ≤ limit then [l] else cut limit l

theorem slicesOf_slices (limit : ℕ) {l : List α} (hl : l ≠ []) : Slices limit l (slicesOf limit l) := by
  unfold slicesOf
  split_ifs with h
  · exact slices_single hl h
  · exact cut_slices (by omega) l

end Slices

namespace StorageAdapter

variable {β : Type} (S : StorageAdapter β)

/-- the calls of the provider for slices of locations, with the response that they fill: the only location of a list is read
as a single item -/
def readSlices : List (List ℕ) → Run (StorageState β) (List Bytes)
  | [[location]] => do
    let raw ← S.getAndRecord location
    return [raw]
  | slices => slices.foldlM (fun response slice => S.getAndRecordBatch slice response) []

/-- the calls of the provider for slices of writes -/
def writeSlices : List (List (ℕ × Bytes)) → Run (StorageState β) Unit
  | [[write]] => S.setAndRecord write.1 write.2
  | slices => slices.forM S.setAndRecordBatch

/-- the adapter that sends one big batch -/
def unbatched : StorageAdapter β := { S with batchLimit := 0 }

variable {S}

/-! ## What the provider receives -/

theorem download_nil : S.download [] = S.getAndRecordBatch [] [] := if_pos (Or.inr (Nat.zero_le _))

theorem upload_nil : S.upload [] = S.setAndRecordBatch [] := if_pos (Or.inr (Nat.zero_le _))

theorem readSlices_of_ne {slices : List (List ℕ)} (h : ∀ ℓ, slices ≠ [[ℓ]]) :
    S.readSlices slices = slices.foldlM (fun response slice => S.getAndRecordBatch slice response) [] := by
  unfold readSlices
  split
  · exact absurd rfl (h _)
  · rfl

theorem writeSlices_of_ne {slices : List (List (ℕ × Bytes))} (h : ∀ write, slices ≠ [[write]]) :
    S.writeSlices slices = slices.forM S.setAndRecordBatch := by
  unfold writeSlices
  split
  · exact absurd rfl (h _)
  · rfl

/-- the loop over batches, from a position on -/
theorem getSlices_eq (locations : List ℕ) (hpos : 0 < S.batchLimit) (pointer : ℕ) (response : List Bytes) :
    S.getSlices locations pointer response = (cut S.batchLimit (locations.drop pointer)).foldlM
      (fun response slice => S.getAndRecordBatch slice response) response := by
  induction hn : locations.length - pointer using Nat.strong_induction_on generalizing pointer response with
  | _ n ih =>
    by_cases hlt : pointer < locations.length
    · have hne : 0 < (locations.drop pointer).length := by
        rw [List.length_drop]
        omega
      rw [getSlices, if_pos ⟨hlt, hpos⟩, cut_of_pos hne hpos, List.foldlM_cons, List.drop_drop]
      exact congrArg _ (funext fun response => ih _ (by omega) (pointer + S.batchLimit) response rfl)
    · rw [getSlices, if_neg fun h => hlt h.1, List.drop_eq_nil_of_le (not_lt.1 hlt), cut_nil]
      rfl

theorem setSlices_eq (writes : List (ℕ × Bytes)) (hpos : 0 < S.batchLimit) (pointer : ℕ) :
    S.setSlices writes pointer = (cut S.batchLimit (writes.drop pointer)).forM S.setAndRecordBatch := by
  induction hn : writes.length - pointer using Nat.strong_induction_on generalizing pointer with
  | _ n ih =>
    by_cases hlt : pointer < writes.length
    · have hne : 0 < (writes.drop pointer).length := by
        rw [List.length_drop]
        omega
      rw [setSlices, if_pos ⟨hlt, hpos⟩, cut_of_pos hne hpos, List.drop_drop, ih _ (by omega) _ rfl]
      rfl
    · rw [setSlices, if_neg fun h => hlt h.1, List.drop_eq_nil_of_le (not_lt.1 hlt), cut_nil]
      rfl

/-- **What a `get` asks the provider for**: slices of its list, in order. -/
theorem download_eq {locations : List ℕ} (hl : locations ≠ []) :
    S.download locations = S.readSlices (slicesOf S.batchLimit locations) := by
  have hslices := slicesOf_slices S.batchLimit hl
  unfold download
  split
  · rw [slicesOf, if_pos (by simp; omega)]
    rfl
  · next hsingle =>
    have hlen : locations.length ≠ 1 := fun h => by
      obtain ⟨ℓ, rfl⟩ := List.length_eq_one_iff.1 h
      exact hsingle ℓ rfl
    rw [readSlices_of_ne (hslices.ne_single hlen), slicesOf]
    split_ifs with hlimit
    · simp
    · rw [getSlices_eq locations (by omega) 0, List.drop_zero]

theorem download_slices {locations : List ℕ} (hl : locations ≠ []) :
    ∃ slices, Slices S.batchLimit locations slices ∧ S.download locations = S.readSlices slices :=
  ⟨_, slicesOf_slices _ hl, download_eq hl⟩

/-- **What a `set` sends to the provider**: slices of its requests, in order. -/
theorem upload_eq {writes : List (ℕ × Bytes)} (hw : writes ≠ []) :
    S.upload writes = S.writeSlices (slicesOf S.batchLimit writes) := by
  have hslices := slicesOf_slices S.batchLimit hw
  unfold upload
  split
  · rw [slicesOf, if_pos (by simp; omega)]
    rfl
  · next hsingle =>
    have hlen : writes.length ≠ 1 := fun h => by
      obtain ⟨write, rfl⟩ := List.length_eq_one_iff.1 h
      exact hsingle write rfl
    rw [writeSlices_of_ne (hslices.ne_single hlen), slicesOf]
    split_ifs with hlimit
    · change _ = (S.setAndRecordBatch writes >>= fun _ => pure ())
      simp
    · rw [setSlices_eq writes (by omega) 0, List.drop_zero]

theorem upload_slices {writes : List (ℕ × Bytes)} (hw : writes ≠ []) :
    ∃ slices, Slices S.batchLimit writes slices ∧ S.upload writes = S.writeSlices slices :=
  ⟨_, slicesOf_slices _ hw, upload_eq hw⟩

/-! ## Termination -/

end StorageAdapter

/-- the methods of the provider throw nothing but what E allows -/
structure Backend.ThrowsOnly {β : Type} (B : Backend β) (E : Exception → Prop) : Prop where
  getInternal : ∀ location, Lib.ThrowsOnly E (B.getInternal location)
  setInternal : ∀ location raw, Lib.ThrowsOnly E (B.setInternal location raw)
  getInternalBatch : ∀ get, B.getInternalBatch = some get → ∀ locations response,
    Lib.ThrowsOnly E (get locations response)
  setInternalBatch : ∀ set, B.setInternalBatch = some set → ∀ writes, Lib.ThrowsOnly E (set writes)

theorem inMemoryBackend_throws (capacity blockSize : ℕ) (E : Exception → Prop) :
    (inMemoryBackend capacity blockSize).ThrowsOnly E where
  getInternal _ := fun _ _ _ => trivial
  setInternal _ _ := fun _ _ _ => trivial
  getInternalBatch _ h := by simp [inMemoryBackend] at h
  setInternalBatch _ h := by simp [inMemoryBackend] at h

namespace StorageAdapter

variable {β : Type} {S : StorageAdapter β} {E : Exception → Prop}

section Throws

variable (hB : S.backend.ThrowsOnly E)

include hB

theorem getAndRecord_throws (location : ℕ) : ThrowsOnly E (S.getAndRecord location) :=
  ((hB.getInternal location).zoom _).bind fun _ => (ThrowsOnly.modify _).bind fun _ => ThrowsOnly.pure _

theorem setAndRecord_throws (location : ℕ) (raw : Bytes) : ThrowsOnly E (S.setAndRecord location raw) :=
  ((hB.setInternal location raw).zoom _).bind fun _ => ThrowsOnly.modify _

/-- with enough fuel the loop of the default does not run out of it -/
theorem getInternalLoop_throws {locations : List ℕ} (hn : locations.length < 2 ^ 32) (fuel i : ℕ)
    (hi : i ≤ locations.length) (hfuel : locations.length - i < fuel) (response : List Bytes) :
    ThrowsOnly E (S.getInternalLoop locations fuel i response) := by
  induction fuel generalizing i response with
  | zero => omega
  | succ fuel ih =>
    unfold getInternalLoop
    refine Triple.ite (fun hlt => ?_) fun _ => ThrowsOnly.pure _
    have hnext : (i + 1) % 2 ^ 32 = i + 1 := Nat.mod_eq_of_lt (by omega)
    apply (getAndRecord_throws hB _).bind
    intro raw
    rw [hnext]
    exact ih (i + 1) hlt (by omega) _

theorem getAndRecordBatch_throws {locations : List ℕ}
    (hn : S.backend.getInternalBatch.isSome ∨ locations.length < 2 ^ 32) (response : List Bytes) :
    ThrowsOnly E (S.getAndRecordBatch locations response) := by
  have hbatch : ThrowsOnly E (S.getInternalBatch locations response) := by
    unfold getInternalBatch
    cases hget : S.backend.getInternalBatch with
    | some get => exact (hB.getInternalBatch get hget locations response).zoom _
    | none => exact getInternalLoop_throws hB (hn.resolve_left (by simp [hget])) _ 0 (Nat.zero_le _) (by omega) _
  exact hbatch.bind fun _ => (ThrowsOnly.modify _).bind fun _ => ThrowsOnly.pure _

theorem setAndRecordBatch_throws (writes : List (ℕ × Bytes)) : ThrowsOnly E (S.setAndRecordBatch writes) := by
  have hbatch : ThrowsOnly E (S.setInternalBatch writes) := by
    unfold setInternalBatch
    cases hset : S.backend.setInternalBatch with
    | some set => exact (hB.setInternalBatch set hset writes).zoom _
    | none => exact ThrowsOnly.forM fun write _ => setAndRecord_throws hB write.1 write.2
  exact hbatch.bind fun _ => ThrowsOnly.modify _

theorem readSlices_throws {slices : List (List ℕ)}
    (hn : ∀ slice ∈ slices, S.backend.getInternalBatch.isSome ∨ slice.length < 2 ^ 32) :
    ThrowsOnly E (S.readSlices slices) := by
  unfold readSlices
  split
  · exact (getAndRecord_throws hB _).bind fun _ => ThrowsOnly.pure _
  · exact Triple.foldlM (fun _ _ _ => True) (fun response slice _ hm =>
      getAndRecordBatch_throws hB (hn slice (hm.subset List.mem_cons_self)) response) _

theorem download_throws {locations : List ℕ} (hn : S.Ends locations.length) : ThrowsOnly E (S.download locations) := by
  rcases eq_or_ne locations [] with rfl | hne
  · rw [download_nil]
    exact getAndRecordBatch_throws hB (Or.inr (by norm_num)) _
  · obtain ⟨slices, hslices, hget⟩ := download_slices (S := S) hne
    rw [hget]
    apply readSlices_throws hB
    intro slice hs
    apply hn.imp_right
    intro hn
    -- a slice is no longer than the list, nor than the limit
    rcases hn with hn | ⟨hpos, hlimit⟩
    · exact lt_of_le_of_lt (hslices.flatten ▸ (List.sublist_flatten_of_mem hs).length_le) hn
    · exact lt_of_le_of_lt (hslices.length_le hpos slice hs) hlimit

theorem upload_throws (writes : List (ℕ × Bytes)) : ThrowsOnly E (S.upload writes) := by
  rcases eq_or_ne writes [] with rfl | hne
  · rw [upload_nil]
    exact setAndRecordBatch_throws hB _
  · obtain ⟨slices, -, hset⟩ := upload_slices (S := S) hne
    rw [hset]
    unfold writeSlices
    split
    · exact setAndRecord_throws hB _ _
    · exact ThrowsOnly.forM fun slice _ => setAndRecordBatch_throws hB slice

end Throws

/-- an error of a list of decodings is the error of one -/
theorem exists_decodeBucket_error {raws : List Bytes} {e : Exception} (h : raws.mapM S.decodeBucket = .error e) :
    ∃ raw ∈ raws, S.decodeBucket raw = .error e := by
  induction raws with
  | nil => cases h
  | cons raw raws ih =>
    rw [List.mapM_cons] at h
    cases hb : S.decodeBucket raw with
    | error e' =>
      rw [hb] at h
      cases h
      exact ⟨raw, List.mem_cons_self, hb⟩
    | ok b =>
      rw [hb] at h
      cases hbs : raws.mapM S.decodeBucket with
      | error e' =>
        rw [hbs] at h
        cases h
        obtain ⟨raw', hmem, herror⟩ := ih hbs
        exact ⟨raw', List.mem_cons_of_mem _ hmem, herror⟩
      | ok bs =>
        rw [hbs] at h
        cases h

/-- decoding throws what `encrypt` throws -/
theorem decodeBucket_error {raw : Bytes} {e : Exception} (h : S.decodeBucket raw = .error e) :
    ∃ size, e = .keyLength size ∨ e = .inputLength size ∨ e = .ivLength size := by
  unfold decodeBucket at h
  cases hd : encrypt S.crypto S.key (raw.take aesBlockSize) (raw.drop aesBlockSize) [] .decrypt with
  | error e' =>
    rw [hd] at h
    cases h
    rcases encrypt_error hd with ⟨-, he⟩ | ⟨-, he⟩ | ⟨-, he⟩
    · exact ⟨_, Or.inl he⟩
    · exact ⟨_, Or.inr (Or.inl he)⟩
    · exact ⟨_, Or.inr (Or.inr he)⟩
  | ok decrypted =>
    rw [hd] at h
    cases h

/-- **A `get` terminates** if the methods of the provider do and no batch is too long for the default. -/
theorem get_throws (hB : S.backend.ThrowsOnly (· ≠ .diverges)) {locations : List ℕ} (hn : S.Ends locations.length) :
    ThrowsOnly (· ≠ .diverges) (S.get locations) := by
  unfold get
  refine ThrowsOnly.bind ?_ fun _ => (ThrowsOnly.modify _).bind fun _ => ?_
  · refine ThrowsOnly.forM fun ℓ _ => Triple.ite (fun _ => ThrowsOnly.throw ?_) fun _ => ThrowsOnly.pure _
    simp
  · refine (download_throws hB hn).bind fun raws => (ThrowsOnly.ofExcept fun e he => ?_).bind fun _ => ThrowsOnly.pure _
    obtain ⟨raw, -, herror⟩ := exists_decodeBucket_error he
    obtain ⟨size, rfl | rfl | rfl⟩ := decodeBucket_error herror <;> simp

theorem encodeRequest_throws (r : ℕ × Bucket) : ThrowsOnly (· ≠ .diverges) (S.encodeRequest r) := by
  unfold encodeRequest
  apply ThrowsOnly.bind (Triple.ite (fun _ => ThrowsOnly.throw (by simp)) fun _ => ThrowsOnly.pure _)
  intro _
  apply Triple.ite (fun _ => ThrowsOnly.throw (by simp))
  intro _
  refine (ThrowsOnly.mapM fun b _ => ?_).bind fun records => ?_
  · exact ThrowsOnly.bind (Triple.ite (fun _ => ThrowsOnly.throw (by simp)) fun _ => ThrowsOnly.pure _) fun _ =>
      ThrowsOnly.pure _
  · apply ThrowsOnly.bind ((ThrowsOnly.world _).bind fun _ => ThrowsOnly.pure _)
    intro iv
    refine (ThrowsOnly.ofExcept fun e he => ?_).bind fun _ => ThrowsOnly.pure _
    rcases encrypt_error he with ⟨-, rfl⟩ | ⟨-, rfl⟩ | ⟨-, rfl⟩ <;> simp

/-- **A `set` terminates** if the methods of the provider do. -/
theorem set_throws (hB : S.backend.ThrowsOnly (· ≠ .diverges)) (requests : List (ℕ × Bucket)) :
    ThrowsOnly (· ≠ .diverges) (S.set requests) :=
  (ThrowsOnly.mapM fun r _ => encodeRequest_throws r).bind fun writes =>
    (ThrowsOnly.modify _).bind fun _ => upload_throws hB writes

/-! ## Results -/

section Results

variable {L : LawfulBackend S.backend S.capacity S.blockSize} (hfault : ∀ e, ¬ L.fault e)

include hfault

/-- what a `get` returns: the bytes of its locations, decoded -/
theorem get_outcome {locations : List ℕ} (hl : ∀ ℓ ∈ locations, ℓ < S.capacity) (hn : S.Ends locations.length) (w : World)
    (s : StorageState β) : ((S.get locations).exec w s).1 =
      ((locations.map (L.raw s.backend)).mapM S.decodeBucket).map List.flatten := by
  suffices h : Triple (RawIs L (L.raw s.backend) s.calls) (S.get locations)
      (fun r _ => ((locations.map (L.raw s.backend)).mapM S.decodeBucket).map List.flatten = .ok r)
      (fun e _ => ((locations.map (L.raw s.backend)).mapM S.decodeBucket).map List.flatten = .error e) by
    have hout := h w s ⟨rfl, rfl⟩
    rcases hexec : (S.get locations).exec w s with ⟨e | r, w', s'⟩
    · rw [hexec] at hout
      exact hout.symm
    · rw [hexec] at hout
      exact hout.symm
  unfold get
  apply (checkCapacities_pass hl).bind
  intro _
  apply (logCall_triple (.get locations)).bind
  intro _
  refine ((download_triple hl hn).conseq (fun _ hs => hs) (fun _ _ hs => hs) fun e _ h => absurd h.1 (hfault e)).bind
    fun raws => Triple.of_pure fun hraws => ?_
  subst hraws
  refine Triple.bind (Q := fun buckets _ => (locations.map (L.raw s.backend)).mapM S.decodeBucket = .ok buckets)
    (Triple.ofExcept (fun _ _ h _ => h) fun e _ h _ => by rw [h]; rfl) fun buckets => Triple.pure fun _ h => ?_
  rw [h]
  rfl

/-- a `get` that is too long for the default batch read throws nothing else than that it does not end -/
theorem get_endless {locations : List ℕ} (hl : ∀ ℓ ∈ locations, ℓ < S.capacity) (hn : ¬ S.Ends locations.length)
    (w : World) (s : StorageState β) : ((S.get locations).exec w s).1 = .error .diverges := by
  suffices h : Triple (RawIs L (L.raw s.backend) s.calls) (S.get locations) (fun _ _ => False)
      (fun e _ => e = .diverges) by
    have hout := h w s ⟨rfl, rfl⟩
    rcases hexec : (S.get locations).exec w s with ⟨e | r, w', s'⟩
    · rw [hexec] at hout
      exact congrArg Except.error hout
    · rw [hexec] at hout
      exact hout.elim
  unfold get
  apply (checkCapacities_pass hl).bind
  intro _
  apply (logCall_triple (.get locations)).bind
  intro _
  have hitem : ∀ ℓ ∈ locations, Triple (RawIs L (L.raw s.backend) (s.calls ++ [.get locations])) (S.getAndRecord ℓ)
      (fun _ => RawIs L (L.raw s.backend) (s.calls ++ [.get locations])) (fun _ _ => False) := fun ℓ hℓ =>
    (getAndRecord_triple (hl ℓ hℓ)).conseq (fun _ hs => hs) (fun _ _ hs => hs.2) fun e _ h => hfault e h.1
  refine ((download_diverges hn hitem).conseq (fun _ hs => hs) (fun _ _ hs => hs) fun _ _ h => ?_).bind fun _ =>
    fun _ _ h => h.elim
  exact h.resolve_right id

/-- what a `set` does after its checks: the bytes are written in order -/
theorem upload_outcome {writes : List (ℕ × Bytes)} (hw : ∀ x ∈ writes, Fits S x) (w : World) (s : StorageState β) :
    (((logCall (.set writes) : Run (StorageState β) Unit) >>= fun _ => S.upload writes).exec w s).1 = .ok () ∧
      L.raw (((logCall (.set writes) : Run (StorageState β) Unit) >>= fun _ => S.upload writes).exec w s).2.2.backend =
        writeAll (L.raw s.backend) writes := by
  have hrun : Triple (RawIs L (L.raw s.backend) s.calls)
      ((logCall (.set writes) : Run (StorageState β) Unit) >>= fun _ => S.upload writes) _ _ :=
    (logCall_triple (.set writes)).bind fun _ => upload_triple hw
  have hout := hrun w s ⟨rfl, rfl⟩
  rcases hexec : ((logCall (.set writes) : Run (StorageState β) Unit) >>= fun _ => S.upload writes).exec w s with
    ⟨e | u, w', s'⟩
  · rw [hexec] at hout
    exact absurd hout.1 (hfault e)
  · rw [hexec] at hout
    exact ⟨rfl, hout.1⟩

/-- **A `set` does what one big batch does**, whatever its requests. -/
theorem set_unbatched (hc : S.crypto.Lawful) (requests : List (ℕ × Bucket)) (w : World) (s : StorageState β) :
    ((S.set requests).exec w s).1 = ((S.unbatched.set requests).exec w s).1 ∧
      L.raw ((S.set requests).exec w s).2.2.backend = L.raw ((S.unbatched.set requests).exec w s).2.2.backend := by
  have hset : ∀ T : StorageAdapter β, (T.set requests).exec w s = (requests.mapM T.encodeRequest >>= fun writes =>
      ((logCall (.set writes) : Run (StorageState β) Unit) >>= fun _ => T.upload writes)).exec w s := fun _ => rfl
  rw [hset, hset]
  change _ = ((requests.mapM S.encodeRequest >>= fun writes => _).exec w s).1 ∧
    _ = L.raw ((requests.mapM S.encodeRequest >>= fun writes => _).exec w s).2.2.backend
  have hencode := (Triple.mapM fun r _ => encodeRequest_fits (S := S) hc r :
    Triple (RawIs L (L.raw s.backend) s.calls) (requests.mapM S.encodeRequest) _ _) w s ⟨rfl, rfl⟩
  rcases hexec : (requests.mapM S.encodeRequest).exec w s with ⟨e | writes, w₁, s₁⟩
  · rw [Prog.exec_bind_error hexec, Prog.exec_bind_error hexec]
    exact ⟨rfl, rfl⟩
  · rw [hexec] at hencode
    have hfits : ∀ x ∈ writes, Fits S x := fun x hx => by
      obtain ⟨r, -, -, h⟩ := exists_of_mem_right hencode.2 hx
      exact h
    rw [Prog.exec_bind_ok hexec, Prog.exec_bind_ok hexec]
    obtain ⟨hok, hraw⟩ := upload_outcome (S := S) hfault hfits w₁ s₁
    obtain ⟨hok', hraw'⟩ := upload_outcome (S := S.unbatched) (L := L) hfault hfits w₁ s₁
    exact ⟨hok.trans hok'.symm, hraw.trans hraw'.symm⟩

end Results

/-- a `get` that ends with the result of one big batch, whatever the draws -/
def GetAgrees (S : StorageAdapter β) (locations : List ℕ) (s : StorageState β) : Prop :=
  ∀ w, ((S.get locations).exec w s).1 ≠ .error .diverges ∧
    ((S.get locations).exec w s).1 = ((S.unbatched.get locations).exec w s).1

/-- where a check of the locations fails, nothing depends on the limit -/
theorem getAgrees_of_invalid {locations : List ℕ} {ℓ : ℕ} (hm : ℓ ∈ locations) (hℓ : S.capacity ≤ ℓ)
    (s : StorageState β) : S.GetAgrees locations s := by
  intro w
  have hget : ∀ T : StorageAdapter β, ∃ rest, (T.get locations).exec w s =
      ((locations.forM T.checkCapacity : Run (StorageState β) PUnit) >>= rest).exec w s := fun _ => ⟨_, rfl⟩
  obtain ⟨rest, hS⟩ := hget S
  obtain ⟨rest', hS'⟩ := hget S.unbatched
  change _ = ((locations.forM S.checkCapacity : Run (StorageState β) PUnit) >>= rest').exec w s at hS'
  rw [hS, hS']
  have hcheck := checkCapacities_triple (S := S) (P := fun _ => True) locations w s trivial
  rcases hexec : (locations.forM S.checkCapacity : Run (StorageState β) PUnit).exec w s with ⟨e | u, w₁, s₁⟩
  · rw [hexec] at hcheck
    obtain ⟨⟨k, rfl⟩, -⟩ := hcheck
    rw [Prog.exec_bind_error hexec, Prog.exec_bind_error hexec]
    exact ⟨by simp, rfl⟩
  · rw [hexec] at hcheck
    exact absurd (hcheck.1 ℓ hm) (not_lt.2 hℓ)

/-- **Sub-batching agrees with one big batch**, exactly where the default batch read ends. Over any provider whose methods
end, a `get` and a `set` hand it consecutive slices of their lists, and end, a `get` if no batch is too long. Over a
provider that returns what was last written, a `set` leaves the same bytes as one big batch, and a `get` returns the same
blocks if and only if its locations fail the check, or the provider has a batch read of its own, or there are fewer
than 2^32 of them. -/
theorem batching (hB : S.backend.ThrowsOnly (· ≠ .diverges)) :
    (∀ locations, locations ≠ [] →
      ∃ slices, Slices S.batchLimit locations slices ∧ S.download locations = S.readSlices slices) ∧
    (∀ writes, writes ≠ [] → ∃ slices, Slices S.batchLimit writes slices ∧ S.upload writes = S.writeSlices slices) ∧
    (∀ requests, ThrowsOnly (· ≠ .diverges) (S.set requests)) ∧
    (∀ locations, S.Ends locations.length → ThrowsOnly (· ≠ .diverges) (S.get locations)) ∧
    ∀ L : LawfulBackend S.backend S.capacity S.blockSize, (∀ e, ¬ L.fault e) → S.crypto.Lawful → ∀ s,
      (∀ requests w, ((S.set requests).exec w s).1 = ((S.unbatched.set requests).exec w s).1 ∧
        L.raw ((S.set requests).exec w s).2.2.backend = L.raw ((S.unbatched.set requests).exec w s).2.2.backend) ∧
      ∀ locations, S.GetAgrees locations s ↔
        (∃ ℓ ∈ locations, S.capacity ≤ ℓ) ∨ S.backend.getInternalBatch.isSome ∨ locations.length < 2 ^ 32 := by
  refine ⟨fun _ => download_slices, fun _ => upload_slices, set_throws hB, fun _ => get_throws hB, ?_⟩
  intro L hfault hc s
  refine ⟨fun requests w => set_unbatched hfault hc requests w s, fun locations => ⟨fun h => ?_, ?_⟩⟩
  · by_contra hcond
    simp only [not_or, not_exists, not_and, not_le] at hcond
    obtain ⟨hl, hget, hlong⟩ := hcond
    have hn : ¬ S.unbatched.Ends locations.length := by
      rintro (hsome | hlt | ⟨hpos, -⟩)
      · exact hget hsome
      · exact hlong hlt
      · exact absurd hpos (lt_irrefl 0)
    obtain ⟨hends, hsame⟩ := h ⟨fun _ => 0, fun _ => 0⟩
    exact hends (hsame.trans (get_endless (S := S.unbatched) (L := L) hfault hl hn _ s))
  · intro hcond w
    by_cases hl : ∀ ℓ ∈ locations, ℓ < S.capacity
    · have hshort : S.backend.getInternalBatch.isSome ∨ locations.length < 2 ^ 32 :=
        hcond.resolve_left fun ⟨ℓ, hm, hℓ⟩ => absurd (hl ℓ hm) (not_lt.2 hℓ)
      have hn : S.Ends locations.length := hshort.imp_right Or.inl
      have hn' : S.unbatched.Ends locations.length := hshort.imp_right Or.inl
      constructor
      · exact fun h => (get_throws hB hn).outcome h rfl
      · rw [get_outcome hfault hl hn, get_outcome (S := S.unbatched) (L := L) hfault hl hn']
        rfl
    · obtain ⟨ℓ, hm, hℓ⟩ : ∃ ℓ ∈ locations, S.capacity ≤ ℓ := by simpa using hl
      exact getAgrees_of_invalid hm hℓ s w

end StorageAdapter

/-- a storage of two buckets in memory, with a limit on its batches -/
def limitedStorage (batchLimit : ℕ) : StorageAdapter (BlockArray 2 64) :=
  { tinyStorage with batchLimit := batchLimit, crypto := plainCrypto, backend := inMemoryBackend 2 64 }

/-- three locations, one of them twice, in batches of two -/
theorem batching_tiny :
    (∃ slices, Slices 2 [1, 0, 1] slices ∧ (limitedStorage 2).download [1, 0, 1] = (limitedStorage 2).readSlices slices) ∧
      (limitedStorage 2).GetAgrees [1, 0, 1] (zeroState tinyStorage 2).storage := by
  obtain ⟨hslices, -, -, -, hresults⟩ :=
    StorageAdapter.batching (S := limitedStorage 2) (inMemoryBackend_throws 2 64 _)
  obtain ⟨-, hget⟩ := hresults (inMemoryBackend_lawful 2 64) (fun _ h => h) plainCrypto_lawful
    (zeroState tinyStorage 2).storage
  exact ⟨hslices _ (by decide), (hget _).2 (Or.inr (Or.inr (by decide)))⟩

/-- with as many locations as an `unsigned int` has values the default batch read does not end, however long it runs -/
theorem batching_endless :
    (∀ w s, (((limitedStorage 0).get (List.replicate (2 ^ 32) 1)).exec w s).1 = .error .diverges) ∧
      ∀ fuel response w s r,
        (((limitedStorage 0).getInternalLoop (List.replicate (2 ^ 32) 1) fuel 0 response).exec w s).1 ≠ .ok r := by
  have hlength : (List.replicate (2 ^ 32) 1).length = 2 ^ 32 := List.length_replicate
  have hmem : ∀ n, ∀ ℓ ∈ List.replicate n 1, ℓ = 1 := fun n ℓ hℓ => List.eq_of_mem_replicate hℓ
  have hones := hmem (2 ^ 32)
  generalize List.replicate (2 ^ 32) 1 = locations at hlength hones ⊢
  constructor
  · intro w s
    have hlong : ¬ (limitedStorage 0).Ends locations.length := by
      rw [hlength]
      unfold StorageAdapter.Ends
      decide
    refine StorageAdapter.get_endless (S := limitedStorage 0) (L := inMemoryBackend_lawful 2 64) (fun _ h => h)
      (fun ℓ hℓ => ?_) hlong w s
    rw [hones ℓ hℓ]
    decide
  · intro fuel response w s r hr
    have hloop := StorageAdapter.getInternalLoop_diverges (S := limitedStorage 0) (P := fun _ => True)
      (E := fun _ _ => True) hlength.ge (fun _ _ => Triple.trivial _ _) fuel 0 (by norm_num) response
    exact hloop.ok trivial (Prog.exec_eq hr)

end PathOram
