/-
What a subscriber is told about a call.

The proxy of a single item reports it. The proxy of a batch reports the batch if the provider claims batch support, with the
sizes added up in an `int`; the default of a batch method goes through the proxy of the items, which report themselves.

- `Backend.ReadsBuckets`: a provider that reads whole buckets.
- `report`: the events for one batch. `reports`: those for the slices of a call.
- `get_emits`, `set_emits`: **the events of a call**, for any provider.
- `Accounts`: the events account for every byte of a call.
- `event_accounting`: **when they do**.
-/
import PathOram.Batching

namespace PathOram

open Lib

/-! ## The length of a batch -/

section Slices

variable {α : Type} {limit : ℕ}

/-- the number of elements of a full batch of a list -/
def batchLength (limit n : ℕ) : ℕ := if limit = 0 ∨ n ≤ limit then n else limit

theorem batchLength_pos (limit : ℕ) {n : ℕ} (hn : 0 < n) : 0 < batchLength limit n := by
  unfold batchLength
  split_ifs <;> omega

theorem batchLength_le (limit n : ℕ) : batchLength limit n ≤ n := by
  unfold batchLength
  split_ifs <;> omega

/-- a sum over the slices of a list -/
theorem sum_slicesOf (limit : ℕ) {l : List α} (hl : l ≠ []) {g : ℕ → ℕ} (hg : g 0 = 0) :
    ((slicesOf limit l).map fun slice => g slice.length).sum =
      l.length / batchLength limit l.length * g (batchLength limit l.length) + g (l.length % batchLength limit l.length) := by
  have hpos := List.length_pos_of_ne_nil hl
  unfold slicesOf batchLength
  split_ifs with h
  · rw [Nat.div_self hpos, Nat.mod_self, hg]
    simp
  · exact sum_cut (by omega) l hg

/-- the slices of lists of one length have the same lengths -/
theorem slicesOf_lengths {γ : Type} {l : List α} {l' : List γ} (h : l.length = l'.length) :
    (slicesOf limit l).map List.length = (slicesOf limit l').map List.length := by
  have hcut : ∀ (l : List α) (l' : List γ), l.length = l'.length →
      (cut limit l).map List.length = (cut limit l').map List.length := by
    intro l
    induction hn : l.length using Nat.strong_induction_on generalizing l with
    | _ n ih =>
      intro l' h
      by_cases hpos : 0 < n ∧ 0 < limit
      · have hdrop : (l.drop limit).length < n := by
          rw [List.length_drop]
          omega
        have hl : 0 < l.length := hn ▸ hpos.1
        have hl' : 0 < l'.length := h ▸ hpos.1
        rw [cut_of_pos hl hpos.2, cut_of_pos hl' hpos.2, List.map_cons, List.map_cons, List.length_take, List.length_take, hn,
          h, ih _ hdrop (l.drop limit) rfl (l'.drop limit) (by simp [hn, h])]
      · have hl : cut limit l = [] := by rw [cut, if_neg (hn ▸ hpos)]
        have hl' : cut limit l' = [] := by rw [cut, if_neg (h ▸ hpos)]
        rw [hl, hl']
        rfl
  unfold slicesOf
  rw [h]
  split_ifs
  · simp [h]
  · exact hcut l l' h

theorem length_slicesOf_flatten (limit : ℕ) {l : List α} (hl : l ≠ []) :
    ((slicesOf limit l).map List.length).sum = l.length := by
  rw [← List.length_flatten, (slicesOf_slices limit hl).flatten]

end Slices

/-! ## The events of a call -/

/-- A provider that reads whole buckets where the invariant holds, which reads keep: one buffer of `blockSize` bytes for
each location, and a batch read appends them to the response. -/
structure Backend.ReadsBuckets {β : Type} (B : Backend β) (capacity blockSize : ℕ) (inv : β → Prop) : Prop where
  getInternal : ∀ location, location < capacity →
    Triple inv (B.getInternal location) (fun raw b => raw.length = blockSize ∧ inv b) (fun _ _ => True)
  getInternalBatch : ∀ get, B.getInternalBatch = some get → ∀ locations response, (∀ ℓ ∈ locations, ℓ < capacity) →
    Triple inv (get locations response) (fun r b => (∃ raws : List Bytes, r = response ++ raws ∧
      raws.length = locations.length ∧ ∀ raw ∈ raws, raw.length = blockSize) ∧ inv b) (fun _ _ => True)

/-- a lawful provider whose buffers all have the size of a bucket -/
theorem LawfulBackend.readsBuckets {β : Type} {B : Backend β} {capacity blockSize : ℕ}
    (L : LawfulBackend B capacity blockSize) :
    B.ReadsBuckets capacity blockSize fun b => ∀ ℓ < capacity, (L.raw b ℓ).length = blockSize where
  getInternal location hl := by
    refine (Triple.exists_pre (P := fun f b => (∀ ℓ < capacity, (f ℓ).length = blockSize) ∧ L.raw b = f) fun f =>
      Triple.of_pure fun hf => (L.getInternal f location hl).conseq (fun _ hs => hs) ?_ fun _ _ _ => trivial).pre
        fun b hb => ⟨_, hb, rfl⟩
    rintro r b ⟨rfl, rfl⟩
    exact ⟨hf location hl, hf⟩
  getInternalBatch get hget locations response hl := by
    refine (Triple.exists_pre (P := fun f b => (∀ ℓ < capacity, (f ℓ).length = blockSize) ∧ L.raw b = f) fun f =>
      Triple.of_pure fun hf => (L.getInternalBatch get hget f locations response hl).conseq (fun _ hs => hs) ?_
        fun _ _ _ => trivial).pre fun b hb => ⟨_, hb, rfl⟩
    rintro r b ⟨rfl, rfl⟩
    refine ⟨⟨_, rfl, List.length_map _, fun raw hraw => ?_⟩, hf⟩
    obtain ⟨ℓ, hℓ, rfl⟩ := List.mem_map.1 hraw
    exact hf ℓ (hl ℓ hℓ)

/-- the events for a batch of n items: those of the default of the batch method, and the one of the batch -/
def report (overridden supported read : Bool) (size n : ℕ) : List StorageEvent :=
  (if overridden then [] else List.replicate n ⟨read, 1, size⟩) ++
    if supported then [⟨read, n, ofInt (toInt (n * size))⟩] else []

/-- the events for slices of some lengths: the only item of a call is reported as an item -/
def reports (overridden supported read : Bool) (size : ℕ) : List ℕ → List StorageEvent
  | [1] => [⟨read, 1, size⟩]
  | lengths => lengths.flatMap (report overridden supported read size)

theorem reports_of_ne {lengths : List ℕ} (h : lengths ≠ [1]) (overridden supported read : Bool) (size : ℕ) :
    reports overridden supported read size lengths = lengths.flatMap (report overridden supported read size) := by
  unfold reports
  split
  · exact absurd rfl h
  · rfl

/-- the lengths of slices that are not one slice of one element -/
theorem lengths_ne_single {α : Type} {slices : List (List α)} (h : ∀ a, slices ≠ [[a]]) : slices.map List.length ≠ [1] := by
  intro hlengths
  obtain ⟨slice, rfl⟩ := List.length_eq_one_iff.1 (by simpa using congrArg List.length hlengths : slices.length = 1)
  obtain ⟨a, rfl⟩ := List.length_eq_one_iff.1 (by simpa using hlengths : slice.length = 1)
  exact h a rfl

namespace StorageAdapter

variable {β : Type} {S : StorageAdapter β}

/-- a sum in which each step wraps is wrapped once -/
theorem foldl_bmod (modulus size : ℕ) (raws : List Bytes) (h : ∀ raw ∈ raws, raw.length = size) (z : ℤ) :
    raws.foldl (fun a raw => (a + raw.length).bmod modulus) (z.bmod modulus) =
      (z + (raws.length * size : ℕ)).bmod modulus := by
  induction raws generalizing z with
  | nil => simp
  | cons raw raws ih =>
    rw [List.foldl_cons, Int.bmod_add_bmod, ih (fun raw' hr => h raw' (List.mem_cons_of_mem _ hr)), h raw List.mem_cons_self,
      List.length_cons]
    push_cast
    ring_nf

/-- the sizes of n buffers of one size, added up in an `int` -/
theorem sumSizes_eq {raws : List Bytes} {size : ℕ} (h : ∀ raw ∈ raws, raw.length = size) :
    sumSizes raws = ofInt (toInt (raws.length * size)) := by
  have hsum := foldl_bmod (2 ^ 32) size raws h 0
  rw [Int.zero_add, Int.zero_bmod] at hsum
  exact congrArg ofInt hsum

/-- what the events of a run so far are, with a subscriber -/
structure Emitted (inv : β → Prop) (events : List StorageEvent) (s : StorageState β) : Prop where
  inv : inv s.backend
  subscribed : s.subscribed = true
  events_eq : s.events = events

section Emits

variable {inv : β → Prop} {events : List StorageEvent}

theorem emit_emits (supported : Bool) (event : StorageEvent) : Triple (Emitted inv events) (emit supported event)
    (fun _ => Emitted inv (events ++ if supported then [event] else [])) (fun _ _ => True) := by
  apply Triple.modify
  intro s hs
  cases supported with
  | true => exact ⟨by simpa [hs.subscribed] using hs.inv, by simp [hs.subscribed], by simp [hs.subscribed, hs.events_eq]⟩
  | false => exact ⟨by simpa using hs.inv, by simp [hs.subscribed], by simp [hs.events_eq]⟩

theorem logCall_emits (call : StorageCall) :
    Triple (Emitted inv events) (logCall call) (fun _ => Emitted inv events) (fun _ _ => True) :=
  Triple.modify fun _ hs => ⟨hs.inv, hs.subscribed, hs.events_eq⟩

/-- the provider emits nothing -/
theorem backend_emits {α : Type} {m : Run β α} {Q : α → Prop}
    (h : Triple inv m (fun a b => Q a ∧ inv b) (fun _ _ => True)) :
    Triple (Emitted inv events) (Prog.zoom (StorageState.backendLens β) m) (fun a s => Q a ∧ Emitted inv events s)
      (fun _ _ => True) :=
  (Triple.zoom_frame (StorageState.backendLens β) h (F := fun s => s.subscribed = true ∧ s.events = events)
    fun _ _ hs => hs).conseq (fun _ hs => ⟨hs.inv, hs.subscribed, hs.events_eq⟩)
      (fun _ _ hs => ⟨hs.1.1, hs.1.2, hs.2.1, hs.2.2⟩) fun _ _ _ => trivial

section Reads

variable (hB : S.backend.ReadsBuckets S.capacity S.blockSize inv)

include hB

theorem getAndRecord_emits {location : ℕ} (hl : location < S.capacity) :
    Triple (Emitted inv events) (S.getAndRecord location)
      (fun raw s => raw.length = S.blockSize ∧ Emitted inv (events ++ [⟨true, 1, S.blockSize⟩]) s) (fun _ _ => True) := by
  apply (backend_emits (hB.getInternal location hl)).bind
  intro raw
  apply Triple.of_pure
  intro hraw
  refine (emit_emits true _).bind fun _ => Triple.pure fun s hs => ⟨hraw, ?_⟩
  rw [hraw] at hs
  exact hs

/-- the loop of the default reports each location that is left -/
theorem getInternalLoop_emits {locations : List ℕ} (hl : ∀ ℓ ∈ locations, ℓ < S.capacity)
    (hn : locations.length < 2 ^ 32) (response : List Bytes) (fuel i : ℕ) (hi : i ≤ locations.length) (raws : List Bytes)
    (hlength : raws.length = i) (hraws : ∀ raw ∈ raws, raw.length = S.blockSize) :
    Triple (Emitted inv events)
      (S.getInternalLoop locations fuel i (response ++ raws ++ List.replicate (locations.length - i) []))
      (fun r s => (∃ raws : List Bytes, r = response ++ raws ∧ raws.length = locations.length ∧
        ∀ raw ∈ raws, raw.length = S.blockSize) ∧
          Emitted inv (events ++ List.replicate (locations.length - i) ⟨true, 1, S.blockSize⟩) s) (fun _ _ => True) := by
  induction fuel generalizing i raws events with
  | zero => exact Triple.throw fun _ _ => trivial
  | succ fuel ih =>
    unfold getInternalLoop
    refine Triple.ite (fun hlt => ?_) fun hge => ?_
    · have hloc : locations.getD i 0 = locations[i] := by simp [hlt]
      have hrest : locations.length - i = locations.length - (i + 1) + 1 := by omega
      have hnext : (i + 1) % 2 ^ 32 = i + 1 := Nat.mod_eq_of_lt (by omega)
      refine (getAndRecord_emits hB (by rw [hloc]; exact hl _ (List.getElem_mem hlt))).bind fun raw =>
        Triple.of_pure fun hraw => ?_
      -- the slot that is filled is the first of the empty ones
      have hset : (response ++ raws ++ List.replicate (locations.length - i) []).set
          ((response ++ raws ++ List.replicate (locations.length - i) ([] : Bytes)).length - locations.length + i) raw =
          response ++ (raws ++ [raw]) ++ List.replicate (locations.length - (i + 1)) [] := by
        have hslot : (response ++ raws ++ List.replicate (locations.length - i) ([] : Bytes)).length -
            locations.length + i = (response ++ raws).length := by
          simp
          omega
        rw [hslot, List.set_append_right _ _ (le_refl _), Nat.sub_self, hrest, List.replicate_succ, List.set_cons_zero]
        simp
      rw [hset, hnext]
      refine (ih (i + 1) hlt (raws ++ [raw]) (by simp [hlength]) ?_).post fun r s hs => ⟨hs.1, ?_⟩
      · intro raw' hr
        rcases List.mem_append.1 hr with hr | hr
        · exact hraws raw' hr
        · rw [List.mem_singleton.1 hr]
          exact hraw
      · rw [hrest, List.replicate_succ, List.append_cons]
        exact hs.2
    · have hend : locations.length - i = 0 := by omega
      apply Triple.pure
      intro s hs
      rw [hend, List.replicate_zero, List.append_nil]
      exact ⟨⟨raws, by simp, by omega, hraws⟩, by simpa using hs⟩

theorem getAndRecordBatch_emits {locations : List ℕ} (hl : ∀ ℓ ∈ locations, ℓ < S.capacity) (response : List Bytes) :
    Triple (Emitted inv events) (S.getAndRecordBatch locations response)
      (fun _ => Emitted inv (events ++ report S.backend.getInternalBatch.isSome S.backend.supportsBatchGet true S.blockSize
        locations.length)) (fun _ _ => True) := by
  have hbatch : Triple (Emitted inv events) (S.getInternalBatch locations response)
      (fun r s => (∃ raws : List Bytes, r = response ++ raws ∧ raws.length = locations.length ∧
        ∀ raw ∈ raws, raw.length = S.blockSize) ∧ Emitted inv (events ++ if S.backend.getInternalBatch.isSome then [] else
          List.replicate locations.length ⟨true, 1, S.blockSize⟩) s) (fun _ _ => True) := by
    unfold getInternalBatch
    cases hget : S.backend.getInternalBatch with
    | some get => simpa using backend_emits (hB.getInternalBatch get hget locations response hl)
    | none =>
      rcases Nat.lt_or_ge locations.length (2 ^ 32) with hn | hn
      · simpa using getInternalLoop_emits hB hl hn response (locations.length + 1) 0 (Nat.zero_le _) [] rfl (by simp)
      · exact (getInternalLoop_diverges (P := fun _ => True) (E := fun _ _ => True) hn (fun _ _ => Triple.trivial _ _) _ 0
          (by norm_num) _).conseq (fun _ _ => trivial) (fun _ _ h => h.elim) fun _ _ _ => trivial
  refine hbatch.bind fun r => Triple.of_pure fun ⟨raws, hr, hlength, hraws⟩ => ?_
  have hdrop : r.drop (r.length - locations.length) = raws := by
    rw [hr, List.length_append, hlength, Nat.add_sub_cancel, List.drop_left]
  apply (emit_emits _ _).bind
  intro _
  apply Triple.pure
  intro s hs
  rw [hdrop, sumSizes_eq hraws, hlength, List.append_assoc] at hs
  exact hs

/-- slice after slice -/
theorem readSlices_emits {slices : List (List ℕ)} (hl : ∀ slice ∈ slices, ∀ ℓ ∈ slice, ℓ < S.capacity) :
    Triple (Emitted inv events) (S.readSlices slices) (fun _ => Emitted inv (events ++ reports
      S.backend.getInternalBatch.isSome S.backend.supportsBatchGet true S.blockSize (slices.map List.length)))
      (fun _ _ => True) := by
  by_cases hsingle : ∃ ℓ, slices = [[ℓ]]
  · obtain ⟨ℓ, rfl⟩ := hsingle
    apply (getAndRecord_emits hB (hl [ℓ] List.mem_cons_self ℓ List.mem_cons_self)).bind
    intro raw
    exact Triple.pure fun s hs => hs.2
  · simp only [not_exists] at hsingle
    rw [readSlices_of_ne hsingle, reports_of_ne (lengths_ne_single hsingle)]
    clear hsingle
    generalize ([] : List Bytes) = response
    induction slices generalizing events response with
    | nil => exact Triple.pure fun s hs => by simpa using hs
    | cons slice slices ih =>
      rw [List.foldlM_cons]
      apply (getAndRecordBatch_emits hB (hl slice List.mem_cons_self) response).bind
      intro response
      apply (ih (fun slice' hs => hl slice' (List.mem_cons_of_mem _ hs)) response).post
      intro _ s hs
      rw [List.map_cons, List.flatMap_cons, ← List.append_assoc]
      exact hs

/-- **The events of a `get`** that returns. -/
theorem get_emits {locations : List ℕ} (hne : locations ≠ []) :
    Triple (Emitted inv events) (S.get locations)
      (fun _ => Emitted inv (events ++ reports S.backend.getInternalBatch.isSome S.backend.supportsBatchGet true S.blockSize
        ((slicesOf S.batchLimit locations).map List.length))) (fun _ _ => True) := by
  unfold get
  have hcheck : Triple (Emitted inv events) (locations.forM S.checkCapacity)
      (fun _ s => (∀ ℓ ∈ locations, ℓ < S.capacity) ∧ Emitted inv events s) (fun _ _ => True) :=
    (checkCapacities_triple locations).conseq (fun _ h => h) (fun _ _ h => h) fun _ _ _ => trivial
  apply hcheck.bind
  intro _
  apply Triple.of_pure
  intro hl
  apply (logCall_emits _).bind
  intro _
  rw [download_eq hne]
  refine (readSlices_emits hB fun slice hs ℓ hℓ => hl ℓ ?_).bind fun raws => ?_
  · rw [← (slicesOf_slices S.batchLimit hne).flatten]
    exact List.mem_flatten.2 ⟨slice, hs, hℓ⟩
  · exact (Triple.ofExcept (fun _ _ _ hs => hs) fun _ _ _ _ => trivial).bind fun _ => Triple.pure fun _ hs => hs

end Reads

section Writes

/-- the state of the provider does not matter for the events of writes -/
abbrev Told (events : List StorageEvent) : StorageState β → Prop := Emitted (fun _ => True) events

theorem setAndRecord_emits {write : ℕ × Bytes} (hw : write.2.length = S.blockSize) :
    Triple (Told events) (S.setAndRecord write.1 write.2) (fun _ => Told (events ++ [⟨false, 1, S.blockSize⟩]))
      (fun _ _ => True) := by
  refine (backend_emits (Q := fun _ => True) ((Triple.trivial _ _).post fun _ _ _ => ⟨trivial, trivial⟩)).bind fun _ =>
    Triple.of_pure fun _ => ?_
  rw [hw]
  exact emit_emits true _

theorem setAndRecordBatch_emits {writes : List (ℕ × Bytes)} (hw : ∀ write ∈ writes, write.2.length = S.blockSize) :
    Triple (Told events) (S.setAndRecordBatch writes) (fun _ => Told (events ++ report S.backend.setInternalBatch.isSome
      S.backend.supportsBatchSet false S.blockSize writes.length)) (fun _ _ => True) := by
  have hbatch : Triple (Told events) (S.setInternalBatch writes) (fun _ => Told (events ++
      if S.backend.setInternalBatch.isSome then [] else List.replicate writes.length ⟨false, 1, S.blockSize⟩))
      (fun _ _ => True) := by
    unfold setInternalBatch
    cases hset : S.backend.setInternalBatch with
    | some set =>
      refine (backend_emits (Q := fun _ => True) ((Triple.trivial _ _).post fun _ _ _ => ⟨trivial, trivial⟩)).post
        fun _ s hs => ?_
      simpa using hs.2
    | none =>
      clear hset
      induction writes generalizing events with
      | nil => exact Triple.pure fun s hs => by simpa using hs
      | cons write writes ih =>
        change Triple _ (S.setAndRecord write.1 write.2 >>= fun _ => _) _ _
        apply (setAndRecord_emits (hw write List.mem_cons_self)).bind
        intro _
        apply (ih fun write' hm => hw write' (List.mem_cons_of_mem _ hm)).post
        intro _ s hs
        simpa [List.replicate_succ] using hs
  have hsizes : sumSizes (writes.map Prod.snd) = ofInt (toInt ((writes.map Prod.snd).length * S.blockSize)) :=
    sumSizes_eq fun raw hraw => by
      obtain ⟨write, hm, rfl⟩ := List.mem_map.1 hraw
      exact hw write hm
  apply hbatch.bind
  intro _
  apply (emit_emits _ _).post
  intro _ s hs
  rw [hsizes, List.length_map, List.append_assoc] at hs
  exact hs

theorem writeSlices_emits {slices : List (List (ℕ × Bytes))}
    (hw : ∀ slice ∈ slices, ∀ write ∈ slice, write.2.length = S.blockSize) :
    Triple (Told events) (S.writeSlices slices) (fun _ => Told (events ++ reports S.backend.setInternalBatch.isSome
      S.backend.supportsBatchSet false S.blockSize (slices.map List.length))) (fun _ _ => True) := by
  by_cases hsingle : ∃ write, slices = [[write]]
  · obtain ⟨write, rfl⟩ := hsingle
    exact setAndRecord_emits (hw [write] List.mem_cons_self write List.mem_cons_self)
  · simp only [not_exists] at hsingle
    rw [writeSlices_of_ne hsingle, reports_of_ne (lengths_ne_single hsingle)]
    clear hsingle
    induction slices generalizing events with
    | nil => exact Triple.pure fun s hs => by simpa using hs
    | cons slice slices ih =>
      change Triple _ (S.setAndRecordBatch slice >>= fun _ => _) _ _
      apply (setAndRecordBatch_emits (hw slice List.mem_cons_self)).bind
      intro _
      apply (ih fun slice' hs => hw slice' (List.mem_cons_of_mem _ hs)).post
      intro _ s hs
      rw [List.map_cons, List.flatMap_cons, ← List.append_assoc]
      exact hs

/-- slices depend on the length of the list alone -/
theorem set_emits (hc : S.crypto.Lawful) {requests : List (ℕ × Bucket)} (hne : requests ≠ []) :
    Triple (Told events) (S.set requests) (fun _ => Told (events ++ reports S.backend.setInternalBatch.isSome
      S.backend.supportsBatchSet false S.blockSize ((slicesOf S.batchLimit requests).map List.length)))
      (fun _ _ => True) := by
  unfold set
  apply (Triple.mapM fun r _ => encodeRequest_fits hc r).bind
  intro writes
  refine Triple.pre (P := fun s => List.Forall₂ (fun r w => w.1 = r.1 ∧ Fits S w) requests writes ∧ Told events s)
    (Triple.of_pure fun hall => ?_) fun s hs => ⟨hs.2, hs.1⟩
  have hlength := hall.length_eq
  have hwne : writes ≠ [] := by
    rintro rfl
    exact hne (List.length_eq_zero_iff.1 hlength)
  have hfits : ∀ x ∈ writes, x.2.length = S.blockSize := fun x hx => by
    obtain ⟨r, -, hr⟩ := exists_of_mem_right hall hx
    exact hr.2.2
  apply (logCall_emits _).bind
  intro _
  rw [upload_eq hwne, slicesOf_lengths hlength]
  refine writeSlices_emits fun slice hs write hm => hfits write ?_
  rw [← (slicesOf_slices S.batchLimit hwne).flatten]
  exact List.mem_flatten.2 ⟨slice, hs, hm⟩

end Writes

end Emits

/-! ## Accounting -/

/-- The events account for every item and every byte of a call: each slice that the provider is handed is reported by one
event for the batch, or by one event for each of its items. -/
structure Accounts {α : Type} (read : Bool) (size : ℕ) (slices : List (List α)) (emitted : List StorageEvent) : Prop where
  counts : (emitted.map StorageEvent.batch).sum = slices.flatten.length
  sizes : (emitted.map StorageEvent.size).sum % 2 ^ 64 = slices.flatten.length * size % 2 ^ 64
  direction : ∀ event ∈ emitted, event.read = read
  once : ∃ reported : List (List StorageEvent), emitted = reported.flatten ∧
    List.Forall₂ (fun slice events => events.map StorageEvent.batch = [slice.length] ∨
      events.map StorageEvent.batch = slice.map fun _ => 1) slices reported

/-- the multiples of 2^32 that an `int` drops of the size of n buckets -/
def dropped (size n : ℕ) : ℕ := (n * size + 2 ^ 31) / 2 ^ 32

/-- The call has one item, or the provider claims batch support where it overrides the batch method, and what is dropped of
the sizes of the batches is a multiple of 2^64. -/
def ReportsAll (overridden supported : Bool) (limit size n : ℕ) : Prop :=
  n = 1 ∨ overridden = supported ∧ (overridden = true →
    2 ^ 32 ∣ n / batchLength limit n * dropped size (batchLength limit n) + dropped size (n % batchLength limit n))

/-- for sizes that fit a signed 64-bit integer the condition is that a batch has fewer than 2^31 bytes -/
theorem reportsAll_iff_of_lt {overridden supported : Bool} {limit size n : ℕ} (hn : 0 < n) (h : n * size < 2 ^ 63) :
    ReportsAll overridden supported limit size n ↔
      n = 1 ∨ overridden = supported ∧ (overridden = true → batchLength limit n * size < 2 ^ 31) := by
  have hpos := batchLength_pos limit hn
  have hle := batchLength_le limit n
  unfold ReportsAll
  set L := batchLength limit n with hL
  refine or_congr_right (and_congr_right fun _ => imp_congr_right fun _ => ?_)
  have hdiv : n / L * L + n % L = n := by rw [Nat.mul_comm, Nat.div_add_mod]
  have hmod := Nat.mod_lt n hpos
  have hone : 1 ≤ n / L := (Nat.one_le_div_iff hpos).2 hle
  have hrest : n % L * size ≤ L * size := Nat.mul_le_mul_right _ hmod.le
  have htotal : n / L * (L * size) + n % L * size = n * size := by rw [← Nat.mul_assoc, ← Nat.add_mul, hdiv]
  unfold dropped
  constructor
  · intro hdvd
    by_contra hlarge
    rw [not_lt] at hlarge
    -- what is dropped is not zero, and less than a multiple of 2^64
    have hfirst : 0 < (L * size + 2 ^ 31) / 2 ^ 32 := Nat.div_pos (by omega) (by norm_num)
    have hfloor : ∀ total, (total + 2 ^ 31) / 2 ^ 32 * 2 ^ 31 ≤ total := fun total => by omega
    have hbound := hfloor (L * size)
    have hbound' := hfloor (n % L * size)
    generalize (L * size + 2 ^ 31) / 2 ^ 32 = first at hfirst hbound hdvd
    generalize (n % L * size + 2 ^ 31) / 2 ^ 32 = last at hbound' hdvd
    have hsum : (n / L * first + last) * 2 ^ 31 ≤ n * size := by
      calc (n / L * first + last) * 2 ^ 31 = n / L * (first * 2 ^ 31) + last * 2 ^ 31 := by ring
        _ ≤ n / L * (L * size) + n % L * size := Nat.add_le_add (Nat.mul_le_mul_left _ hbound) hbound'
        _ = n * size := htotal
    have hpositive : 0 < n / L * first := Nat.mul_pos hone hfirst
    have := Nat.le_of_dvd (by omega) hdvd
    omega
  · intro hsmall
    have hfirst : (L * size + 2 ^ 31) / 2 ^ 32 = 0 := Nat.div_eq_of_lt (by omega)
    have hlast : (n % L * size + 2 ^ 31) / 2 ^ 32 = 0 := Nat.div_eq_of_lt (by omega)
    rw [hfirst, hlast]
    simp

/-- what is told of a size, and what is dropped of it -/
theorem ofInt_toInt_add_dropped (size n : ℕ) :
    (ofInt (toInt (n * size)) + 2 ^ 32 * dropped size n) % 2 ^ 64 = n * size % 2 ^ 64 := by
  unfold ofInt toInt dropped
  generalize n * size = total
  rw [Int.bmod_def]
  norm_num
  split_ifs <;> omega

section Sums

variable {α : Type} {overridden supported read : Bool} {size : ℕ}

theorem sum_flatMap_map {γ : Type} (f : ℕ → List γ) (g : γ → ℕ) (lengths : List ℕ) :
    ((lengths.flatMap f).map g).sum = (lengths.map fun n => ((f n).map g).sum).sum := by
  induction lengths with
  | nil => rfl
  | cons n lengths ih => rw [List.flatMap_cons, List.map_append, List.sum_append, ih, List.map_cons, List.sum_cons]

/-- how often the items of some batches are counted -/
theorem counts_reports (overridden supported read : Bool) (size : ℕ) (lengths : List ℕ) :
    ((lengths.flatMap (report overridden supported read size)).map StorageEvent.batch).sum =
      ((if overridden then 0 else 1) + if supported then 1 else 0) * lengths.sum := by
  have hone : ∀ n, ((report overridden supported read size n).map StorageEvent.batch).sum =
      ((if overridden then 0 else 1) + if supported then 1 else 0) * n := fun n => by
    cases overridden <;> cases supported <;> simp [report]; omega
  rw [sum_flatMap_map]
  simp only [hone]
  rw [List.sum_map_mul_left, List.map_id']

/-- what is told and what is dropped add up over a list -/
theorem sum_told {told lost : ℕ → ℕ} (h : ∀ n, (told n + 2 ^ 32 * lost n) % 2 ^ 64 = n * size % 2 ^ 64)
    (lengths : List ℕ) :
    ((lengths.map told).sum + 2 ^ 32 * (lengths.map lost).sum) % 2 ^ 64 = lengths.sum * size % 2 ^ 64 := by
  induction lengths with
  | nil => rw [List.map_nil, List.map_nil, List.sum_nil, Nat.mul_zero, Nat.zero_mul]
  | cons n lengths ih =>
    have hhead := h n
    rw [List.map_cons, List.map_cons, List.sum_cons, List.sum_cons, List.sum_cons, Nat.add_mul]
    omega

/-- the sizes of batches that are reported as batches -/
theorem sizes_batches (read : Bool) (size : ℕ) (lengths : List ℕ) :
    (((lengths.flatMap (report true true read size)).map StorageEvent.size).sum +
      2 ^ 32 * (lengths.map (dropped size)).sum) % 2 ^ 64 = lengths.sum * size % 2 ^ 64 := by
  have hone : ∀ n, ((report true true read size n).map StorageEvent.size).sum = ofInt (toInt (n * size)) := fun n => by
    rw [report, if_pos rfl, if_pos rfl, List.nil_append, List.map_cons, List.map_nil, List.sum_singleton]
  rw [sum_flatMap_map, funext hone]
  exact sum_told (ofInt_toInt_add_dropped size) lengths

/-- the sizes of batches that are reported item by item -/
theorem sizes_items (lengths : List ℕ) :
    ((lengths.flatMap (report false false read size)).map StorageEvent.size).sum = lengths.sum * size := by
  have hone : ∀ n, ((report false false read size n).map StorageEvent.size).sum = n * size := fun n => by simp [report]
  rw [sum_flatMap_map]
  simp only [hone]
  rw [List.sum_map_mul_right, List.map_id']

theorem direction_reports (overridden supported read : Bool) (size : ℕ) (lengths : List ℕ) :
    ∀ event ∈ lengths.flatMap (report overridden supported read size), event.read = read := by
  intro event hm
  obtain ⟨n, -, hm⟩ := List.mem_flatMap.1 hm
  cases overridden <;> cases supported <;> simp [report] at hm <;> grind

end Sums

/-- **When the events of some slices account for all of them.** -/
theorem accounts_iff {α : Type} {limit : ℕ} {l : List α} (hl : l ≠ []) (overridden supported read : Bool) (size : ℕ) :
    Accounts read size (slicesOf limit l) (reports overridden supported read size ((slicesOf limit l).map List.length)) ↔
      ReportsAll overridden supported limit size l.length := by
  have hslices := slicesOf_slices limit hl
  have hpos := List.length_pos_of_ne_nil hl
  rcases eq_or_ne l.length 1 with hone | hne
  · obtain ⟨a, rfl⟩ := List.length_eq_one_iff.1 hone
    have hsingle : slicesOf limit [a] = [[a]] := if_pos (by simp; omega)
    rw [hsingle]
    refine iff_of_true ⟨rfl, by simp [reports], by simp [reports], [[⟨read, 1, size⟩]], rfl, ?_⟩ (Or.inl rfl)
    exact .cons (Or.inl rfl) .nil
  · rw [reports_of_ne (lengths_ne_single (hslices.ne_single hne))]
    have hsum := length_slicesOf_flatten limit hl
    have hcounts := counts_reports overridden supported read size ((slicesOf limit l).map List.length)
    have hdirection := direction_reports overridden supported read size ((slicesOf limit l).map List.length)
    have hdropped := sum_slicesOf limit (g := dropped size) hl (by simp [dropped])
    rw [hsum] at hcounts
    constructor
    · intro h
      have hcount := h.counts
      rw [hcounts, hslices.flatten] at hcount
      have hflags : overridden = supported := by
        cases overridden <;> cases supported <;> simp at hcount ⊢ <;> omega
      subst hflags
      refine Or.inr ⟨rfl, fun hover => ?_⟩
      subst hover
      have htold := sizes_batches read size ((slicesOf limit l).map List.length)
      have hsize := h.sizes
      rw [hslices.flatten] at hsize
      rw [hsum, List.map_map, Function.comp_def, hdropped] at htold
      omega
    · rintro (hone | ⟨rfl, hover⟩)
      · exact absurd hone hne
      · cases overridden with
        | false =>
          refine ⟨by rw [hcounts, hslices.flatten]; simp, ?_, hdirection,
            (slicesOf limit l).map fun slice => slice.map fun _ => ⟨read, 1, size⟩, ?_, ?_⟩
          · rw [sizes_items, hsum, hslices.flatten]
          · rw [List.flatMap_map, List.flatMap_def]
            simp [report, List.map_const']
          · rw [List.forall₂_map_right_iff, List.forall₂_same]
            exact fun slice _ => Or.inr (by simp)
        | true =>
          have htold := sizes_batches read size ((slicesOf limit l).map List.length)
          rw [hsum, List.map_map, Function.comp_def, hdropped] at htold
          have hdvd := hover rfl
          refine ⟨by rw [hcounts, hslices.flatten]; simp, by rw [hslices.flatten]; omega, hdirection,
            (slicesOf limit l).map fun slice => [⟨read, slice.length, ofInt (toInt (slice.length * size))⟩], ?_, ?_⟩
          · rw [List.flatMap_map, List.flatMap_def]
            simp [report]
          · rw [List.forall₂_map_right_iff, List.forall₂_same]
            exact fun slice _ => Or.inl rfl

/-- **When the events of a call account for every byte.** With a subscriber, a `get` or a `set` of a non-empty list that
returns adds events that account for its items, in its direction, if and only if it `ReportsAll`. -/
theorem event_accounting {inv : β → Prop} (hB : S.backend.ReadsBuckets S.capacity S.blockSize inv) (hc : S.crypto.Lawful)
    {w : World} {s : StorageState β} (hsubscribed : s.subscribed = true) (hinv : inv s.backend) :
    (∀ locations, locations ≠ [] → ∀ r w' s', (S.get locations).exec w s = (.ok r, w', s') →
      ∃ emitted, s'.events = s.events ++ emitted ∧
        (Accounts true S.blockSize (slicesOf S.batchLimit locations) emitted ↔ ReportsAll
          S.backend.getInternalBatch.isSome S.backend.supportsBatchGet S.batchLimit S.blockSize locations.length)) ∧
    ∀ requests, requests ≠ [] → ∀ r w' s', (S.set requests).exec w s = (.ok r, w', s') →
      ∃ emitted, s'.events = s.events ++ emitted ∧
        (Accounts false S.blockSize (slicesOf S.batchLimit requests) emitted ↔ ReportsAll
          S.backend.setInternalBatch.isSome S.backend.supportsBatchSet S.batchLimit S.blockSize requests.length) := by
  constructor
  · intro locations hne r w' s' hexec
    have hemitted := (get_emits hB hne).ok ⟨hinv, hsubscribed, rfl⟩ hexec
    exact ⟨_, hemitted.events_eq, accounts_iff hne _ _ _ _⟩
  · intro requests hne r w' s' hexec
    have hemitted := (set_emits hc hne).ok ⟨trivial, hsubscribed, rfl⟩ hexec
    exact ⟨_, hemitted.events_eq, accounts_iff hne _ _ _ _⟩

end StorageAdapter

/-! ## Providers with and without batch methods -/

/-- a provider in memory with batch methods of its own, which it claims -/
def batchingBackend (capacity blockSize : ℕ) : Backend (BlockArray capacity blockSize) where
  getInternal := (inMemoryBackend capacity blockSize).getInternal
  setInternal := (inMemoryBackend capacity blockSize).setInternal
  getInternalBatch := some fun locations response => do
    let blocks ← Prog.read
    return response ++ locations.map blocks.read
  setInternalBatch := some fun writes =>
    Prog.modify fun blocks => writes.foldl (fun blocks write => blocks.write write.1 write.2) blocks
  supportsBatchGet := true
  supportsBatchSet := true

/-- writing in turn is writing all -/
theorem BlockArray.read_foldl_write {capacity blockSize : ℕ} (writes : List (ℕ × Bytes))
    (hw : ∀ w ∈ writes, w.1 < capacity ∧ w.2.length = blockSize) (blocks : BlockArray capacity blockSize) :
    (writes.foldl (fun blocks write => blocks.write write.1 write.2) blocks).read = writeAll blocks.read writes := by
  induction writes generalizing blocks with
  | nil => rfl
  | cons write writes ih =>
    obtain ⟨hlt, hlen⟩ := hw write List.mem_cons_self
    rw [List.foldl_cons, ih (fun w hm => hw w (List.mem_cons_of_mem _ hm)), BlockArray.read_write blocks hlt hlen]
    rfl

def batchingBackend_lawful (capacity blockSize : ℕ) : LawfulBackend (batchingBackend capacity blockSize) capacity blockSize
    where
  raw := BlockArray.read
  fault _ := False
  getInternal := (inMemoryBackend_lawful capacity blockSize).getInternal
  setInternal := (inMemoryBackend_lawful capacity blockSize).setInternal
  getInternalBatch get hget f locations response _ := by
    obtain rfl := Option.some.inj hget
    refine Triple.bind (Q := fun b s => BlockArray.read b = f ∧ BlockArray.read s = f) ?_ fun b => ?_
    · exact Triple.read fun s hs => ⟨hs, hs⟩
    · exact Triple.pure fun s hs => ⟨by rw [hs.1], hs.2⟩
  setInternalBatch set hset f writes hw := by
    obtain rfl := Option.some.inj hset
    exact Triple.modify fun s hs => by rw [BlockArray.read_foldl_write writes hw, hs]

/-- the buffers of an array have its block size -/
theorem BlockArray.length_read {capacity blockSize : ℕ} (blocks : BlockArray capacity blockSize) {location : ℕ}
    (h : location < capacity) : (blocks.read location).length = blockSize := by
  rw [BlockArray.read, Vector.getElem?_eq_getElem h]
  exact blocks[location].2

/-- a storage of two buckets, without a batch limit -/
def batchingStorage : StorageAdapter (BlockArray 2 64) :=
  { tinyStorage with crypto := plainCrypto, backend := batchingBackend 2 64 }

/-- the state of an array of zeroes with a subscriber -/
def subscribedState : StorageState (BlockArray 2 64) := { (zeroState tinyStorage 2).storage with subscribed := true }

/-- three locations in batches of two, over a provider without batch methods -/
theorem event_accounting_tiny : ∃ r w' s',
    ((limitedStorage 2).get [1, 0, 1]).exec zeroWorld subscribedState = (.ok r, w', s') ∧
      ∃ emitted, s'.events = emitted ∧ StorageAdapter.Accounts true 64 (slicesOf 2 [1, 0, 1]) emitted := by
  have hexec : ((limitedStorage 2).get [1, 0, 1]).exec zeroWorld subscribedState =
      (.ok (List.replicate 3 (0, List.replicate 32 0)), _, _) := Prog.exec_eq (by decide +kernel)
  have hB : (limitedStorage 2).backend.ReadsBuckets 2 64 _ := (inMemoryBackend_lawful 2 64).readsBuckets
  obtain ⟨hget, -⟩ := StorageAdapter.event_accounting (S := limitedStorage 2) hB plainCrypto_lawful (w := zeroWorld)
    (s := subscribedState) rfl fun ℓ hℓ => BlockArray.length_read _ hℓ
  obtain ⟨emitted, hevents, haccounts⟩ := hget [1, 0, 1] (by simp) _ _ _ hexec
  exact ⟨_, _, _, hexec, emitted, hevents, haccounts.2 (Or.inr ⟨rfl, fun h => by cases h⟩)⟩

/-- A batch of 2^25 buckets of 64 bytes is reported with a negative size. -/
theorem events_wrap : ∃ r w' s',
    (batchingStorage.get (List.replicate (2 ^ 25) 1)).exec zeroWorld subscribedState = (.ok r, w', s') ∧
      s'.events = [⟨true, 2 ^ 25, 2 ^ 64 - 2 ^ 31⟩] ∧
      ¬ StorageAdapter.Accounts true 64 (slicesOf 0 (List.replicate (2 ^ 25) 1)) s'.events := by
  have hlength : (List.replicate (2 ^ 25) 1).length = 2 ^ 25 := List.length_replicate
  have hones : ∀ ℓ ∈ List.replicate (2 ^ 25) 1, ℓ = 1 := fun ℓ hℓ => List.eq_of_mem_replicate hℓ
  generalize List.replicate (2 ^ 25) 1 = locations at hlength hones ⊢
  have hne : locations ≠ [] := List.ne_nil_of_length_pos (by rw [hlength]; norm_num)
  have hl : ∀ ℓ ∈ locations, ℓ < batchingStorage.capacity := fun ℓ hℓ => by
    rw [hones ℓ hℓ]
    decide
  -- each location holds an array of zeroes
  have hdecode : batchingStorage.decodeBucket ((batchingBackend_lawful 2 64).raw subscribedState.backend 1) =
      .ok [(0, List.replicate 32 0)] := by decide +kernel
  have hdecodeAll : ∀ locations : List ℕ, (∀ ℓ ∈ locations, ℓ = 1) →
      (locations.map ((batchingBackend_lawful 2 64).raw subscribedState.backend)).mapM batchingStorage.decodeBucket =
        .ok (locations.map fun _ => [(0, List.replicate 32 0)]) := by
    intro locations
    induction locations with
    | nil => exact fun _ => rfl
    | cons ℓ locations ih =>
      intro hones
      rw [List.map_cons, List.mapM_cons, hones ℓ List.mem_cons_self, hdecode, ih fun ℓ hℓ => hones ℓ (List.mem_cons_of_mem _ hℓ)]
      rfl
  have houtcome := StorageAdapter.get_outcome (S := batchingStorage) (L := batchingBackend_lawful 2 64) (fun _ h => h) hl
    (Or.inl rfl) zeroWorld subscribedState
  rw [hdecodeAll locations hones] at houtcome
  have hexec := Prog.exec_eq houtcome
  have hB : batchingStorage.backend.ReadsBuckets 2 64 _ := (batchingBackend_lawful 2 64).readsBuckets
  have hstart : StorageAdapter.Emitted (fun b => ∀ ℓ < 2, ((batchingBackend_lawful 2 64).raw b ℓ).length = 64) []
      subscribedState := ⟨fun ℓ hℓ => BlockArray.length_read _ hℓ, rfl, rfl⟩
  have hemitted := (StorageAdapter.get_emits (S := batchingStorage) hB hne).ok hstart hexec
  have hslices : slicesOf 0 locations = [locations] := if_pos (Or.inl rfl)
  have hevents : reports true true true 64 ((slicesOf 0 locations).map List.length) = [⟨true, 2 ^ 25, 2 ^ 64 - 2 ^ 31⟩] := by
    have hsize : ofInt (toInt (2 ^ 25 * 64)) = 2 ^ 64 - 2 ^ 31 := by decide +kernel
    rw [hslices, List.map_singleton, hlength, reports_of_ne (by simp), List.flatMap_singleton, report, if_pos rfl, if_pos rfl,
      List.nil_append, hsize]
  have hwhole : ¬ StorageAdapter.ReportsAll true true 0 64 (2 ^ 25) := by
    rw [StorageAdapter.reportsAll_iff_of_lt (by norm_num) (by norm_num)]
    rintro (hone | ⟨-, hsmall⟩)
    · exact absurd hone (by norm_num)
    · rw [batchLength, if_pos (Or.inl rfl)] at hsmall
      exact absurd (hsmall rfl) (by norm_num)
  have htold := hemitted.events_eq
  rw [List.nil_append] at htold
  refine ⟨_, _, _, hexec, htold.trans hevents, fun h => ?_⟩
  rw [htold] at h
  have hreports := (StorageAdapter.accounts_iff hne true true true 64).1 h
  rw [hlength] at hreports
  exact hwhole hreports

end PathOram
