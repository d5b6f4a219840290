/-
Providers of storage are interchangeable.

An ORAM may be hosted by any provider, and with any batch limit. Two providers that return what was last written, do not throw
and do not draw are compared in one world: the requests that are drawn and encrypted are the same, and the batches, the loops
and the calls of the provider that carry them out are not.

- `Backend.Quiet`: a provider that leaves the world alone; `inMemoryBackend_quiet`, `fileBackend_quiet`.
- `get_lockstep`, `set_lockstep`: the storage adapter over two providers.
- `access_lockstep`, `exec_lockstep`, `load_lockstep`: the ORAM, over whatever position map.
- `providers_interchangeable`: **the same replies, exceptions, requests and data**, from the constructor on.
-/
import PathOram.Batches
import PathOram.FileSystem
import PathOram.Lib.Lockstep
import PathOram.Trace

namespace PathOram

open Lib

/-! ## Quiet providers -/

/-- no method of the provider touches the world -/
structure Backend.Quiet {β : Type} (B : Backend β) : Prop where
  getInternal : ∀ location, Lib.Quiet (B.getInternal location)
  setInternal : ∀ location raw, Lib.Quiet (B.setInternal location raw)
  getInternalBatch : ∀ get, B.getInternalBatch = some get → ∀ locations response, Lib.Quiet (get locations response)
  setInternalBatch : ∀ set, B.setInternalBatch = some set → ∀ writes, Lib.Quiet (set writes)

theorem inMemoryBackend_quiet (capacity blockSize : ℕ) : (inMemoryBackend capacity blockSize).Quiet where
  getInternal _ := fun _ _ => rfl
  setInternal _ _ := fun _ _ => rfl
  getInternalBatch _ h := by simp [inMemoryBackend] at h
  setInternalBatch _ h := by simp [inMemoryBackend] at h

theorem fileBackend_quiet (capacity blockSize : ℕ) : (fileBackend capacity blockSize).Quiet where
  getInternal _ := fun _ _ => rfl
  setInternal _ _ := fun _ _ => rfl
  getInternalBatch _ h := by simp [fileBackend] at h
  setInternalBatch _ h := by simp [fileBackend] at h

namespace StorageAdapter

section Quiet

variable {β : Type} {S : StorageAdapter β}

theorem emit_quiet (supported : Bool) (event : StorageEvent) : Quiet (emit supported event : Run (StorageState β) Unit) :=
  Quiet.modify _

variable (hq : S.backend.Quiet)

include hq

theorem getAndRecord_quiet (location : ℕ) : Quiet (S.getAndRecord location) :=
  ((hq.getInternal location).zoom _).bind fun _ => (emit_quiet _ _).bind fun _ => Quiet.pure _

theorem setAndRecord_quiet (location : ℕ) (raw : Bytes) : Quiet (S.setAndRecord location raw) :=
  ((hq.setInternal location raw).zoom _).bind fun _ => emit_quiet _ _

theorem getInternalLoop_quiet (locations : List ℕ) (fuel i : ℕ) (response : List Bytes) :
    Quiet (S.getInternalLoop locations fuel i response) := by
  induction fuel generalizing i response with
  | zero => exact Quiet.throw _
  | succ fuel ih =>
    rw [getInternalLoop]
    exact Quiet.ite ((getAndRecord_quiet hq _).bind fun _ => ih _ _) (Quiet.pure _)

theorem getAndRecordBatch_quiet (locations : List ℕ) (response : List Bytes) :
    Quiet (S.getAndRecordBatch locations response) := by
  have hbatch : Quiet (S.getInternalBatch locations response) := by
    unfold getInternalBatch
    cases hget : S.backend.getInternalBatch with
    | some get => exact (hq.getInternalBatch get hget locations response).zoom _
    | none => exact getInternalLoop_quiet hq _ _ _ _
  exact hbatch.bind fun _ => (emit_quiet _ _).bind fun _ => Quiet.pure _

theorem setAndRecordBatch_quiet (writes : List (ℕ × Bytes)) : Quiet (S.setAndRecordBatch writes) := by
  have hbatch : Quiet (S.setInternalBatch writes) := by
    unfold setInternalBatch
    cases hset : S.backend.setInternalBatch with
    | some set => exact (hq.setInternalBatch set hset writes).zoom _
    | none => exact Quiet.forM fun write => setAndRecord_quiet hq _ _
  exact hbatch.bind fun _ => emit_quiet _ _

theorem getSlices_quiet (locations : List ℕ) (pointer : ℕ) (response : List Bytes) :
    Quiet (S.getSlices locations pointer response) := by
  induction hn : locations.length - pointer using Nat.strong_induction_on generalizing pointer response with
  | _ n ih =>
    rw [getSlices]
    split_ifs with h
    · exact (getAndRecordBatch_quiet hq _ _).bind fun response => ih _ (by omega) (pointer + S.batchLimit) response rfl
    · exact Quiet.pure _

theorem setSlices_quiet (writes : List (ℕ × Bytes)) (pointer : ℕ) : Quiet (S.setSlices writes pointer) := by
  induction hn : writes.length - pointer using Nat.strong_induction_on generalizing pointer with
  | _ n ih =>
    rw [setSlices]
    split_ifs with h
    · exact (setAndRecordBatch_quiet hq _).bind fun _ => ih _ (by omega) (pointer + S.batchLimit) rfl
    · exact Quiet.pure _

theorem download_quiet (locations : List ℕ) : Quiet (S.download locations) := by
  unfold download
  split
  · exact (getAndRecord_quiet hq _).bind fun _ => Quiet.pure _
  · exact Quiet.ite (getAndRecordBatch_quiet hq _ _) (getSlices_quiet hq _ 0 _)

theorem upload_quiet (writes : List (ℕ × Bytes)) : Quiet (S.upload writes) := by
  unfold upload
  split
  · exact setAndRecord_quiet hq _ _
  · exact Quiet.ite (setAndRecordBatch_quiet hq _) (setSlices_quiet hq _ 0)

end Quiet

/-! ## The storage adapter over another provider -/

/-- the same adapter over another provider, with a batch limit of its own -/
def rehost {β β' : Type} (S : StorageAdapter β) (B : Backend β') (batchLimit : ℕ) : StorageAdapter β' :=
  { S.toAbsStorageAdapter with batchLimit := batchLimit, crypto := S.crypto, backend := B }

section Lockstep

variable {β β' : Type} {S : StorageAdapter β} {B' : Backend β'} {limit : ℕ}
  (L : LawfulBackend S.backend S.capacity S.blockSize) (L' : LawfulBackend B' S.capacity S.blockSize)

/-- the same bytes at the locations of the storage, and the same record of calls -/
def SameStore (t : StorageState β) (t' : StorageState β') : Prop :=
  (∀ ℓ < S.capacity, L.raw t.backend ℓ = L'.raw t'.backend ℓ) ∧ t.calls = t'.calls

theorem logCall_lockstep (call : StorageCall) : Lockstep (SameStore L L') (logCall call) (logCall call) :=
  Lockstep.modify fun _ _ h => ⟨h.1, congrArg (· ++ [call]) h.2⟩

theorem checkCapacities_lockstep {R : StorageState β → StorageState β' → Prop} (locations : List ℕ) :
    Lockstep R (locations.forM S.checkCapacity) (locations.forM (S.rehost B' limit).checkCapacity) :=
  Lockstep.forM fun _ => Lockstep.ite (Lockstep.throw _) (Lockstep.pure _)

/-- the requests are encoded in the same way -/
theorem encodeRequest_lockstep {R : StorageState β → StorageState β' → Prop} (request : ℕ × Bucket) :
    Lockstep R (S.encodeRequest request) ((S.rehost B' limit).encodeRequest request) := by
  have hblock : ∀ b, Lockstep R (S.encodeBlock b) ((S.rehost B' limit).encodeBlock b) := fun b =>
    Lockstep.bind (Lockstep.ite (Lockstep.throw _) (Lockstep.pure _)) fun _ => Lockstep.pure _
  have hiv : Lockstep R (getRandomBlock aesBlockSize) (getRandomBlock aesBlockSize) :=
    (Lockstep.world _).bind fun _ => Lockstep.pure _
  apply Lockstep.bind (Lockstep.ite (Lockstep.throw _) (Lockstep.pure _))
  intro _
  apply Lockstep.ite (Lockstep.throw _)
  apply (Lockstep.mapM hblock).bind
  intro records
  exact hiv.bind fun iv => (Lockstep.ofExcept _).bind fun _ => Lockstep.pure _

/-- writes to the same locations agree where they write -/
theorem writeAll_congr {α : Type} {f f' : ℕ → α} {writes : List (ℕ × α)} {ℓ : ℕ}
    (h : f ℓ = f' ℓ ∨ ℓ ∈ writes.map Prod.fst) : writeAll f writes ℓ = writeAll f' writes ℓ := by
  induction writes generalizing f f' with
  | nil => simpa [writeAll] using h
  | cons write writes ih =>
    apply ih
    by_cases hℓ : ℓ = write.1
    · left
      simp [hℓ]
    · simpa [hℓ] using h

variable {L L'} (hfault : ∀ e, ¬ L.fault e) (hfault' : ∀ e, ¬ L'.fault e) (hq : S.backend.Quiet) (hq' : B'.Quiet)

include hfault hfault' hq hq'

/-- uploads write the same -/
theorem upload_alike {writes : List (ℕ × Bytes)} (hw : ∀ w ∈ writes, Fits S w) {t : StorageState β} {t' : StorageState β'}
    (hraw : ∀ ℓ < S.capacity, L.raw t.backend ℓ = L'.raw t'.backend ℓ ∨ ℓ ∈ writes.map Prod.fst) (hcalls : t.calls = t'.calls)
    (w : World) : Alike (SameStore L L') ((S.upload writes).exec w t) (((S.rehost B' limit).upload writes).exec w t') := by
  have h : Triple (RawIs L (L.raw t.backend) t.calls) (S.upload writes)
      (fun _ => RawIs L (writeAll (L.raw t.backend) writes) t.calls) (fun _ _ => False) :=
    (upload_triple hw).conseq (fun _ h => h) (fun _ _ h => h) fun e _ he => hfault e he.1
  have h' : Triple (RawIs (S := S.rehost B' limit) L' (L'.raw t'.backend) t'.calls) ((S.rehost B' limit).upload writes)
      (fun _ => RawIs (S := S.rehost B' limit) L' (writeAll (L'.raw t'.backend) writes) t'.calls) (fun _ _ => False) :=
    (upload_triple (S := S.rehost B' limit) (L := L') hw).conseq (fun _ h => h) (fun _ _ h => h) fun e _ he => hfault' e he.1
  refine Alike.of_triples (upload_quiet hq writes) (upload_quiet (S := S.rehost B' limit) hq' writes) h h' ⟨rfl, rfl⟩ ⟨rfl, rfl⟩
    (fun _ _ u u' hu hu' => ⟨rfl, fun ℓ hℓ => ?_, hu.2.trans (hcalls.trans hu'.2.symm)⟩) w
  rw [hu.1, hu'.1]
  exact writeAll_congr (hraw ℓ hℓ)

/-- downloads return the same -/
theorem download_lockstep {locations : List ℕ} (hl : ∀ ℓ ∈ locations, ℓ < S.capacity) (hn : locations.length < 2 ^ 32) :
    Lockstep (SameStore L L') (S.download locations) ((S.rehost B' limit).download locations) := by
  intro w t t' hs
  have h : Triple (RawIs L (L.raw t.backend) t.calls) (S.download locations)
      (fun r s => r = locations.map (L.raw t.backend) ∧ RawIs L (L.raw t.backend) t.calls s) (fun _ _ => False) :=
    (download_triple hl (ends_of_lt hn)).conseq (fun _ h => h) (fun _ _ h => h) fun e _ he => hfault e he.1
  have h' : Triple (RawIs (S := S.rehost B' limit) L' (L'.raw t'.backend) t'.calls) ((S.rehost B' limit).download locations)
      (fun r s => r = locations.map (L'.raw t'.backend) ∧ RawIs (S := S.rehost B' limit) L' (L'.raw t'.backend) t'.calls s)
      (fun _ _ => False) :=
    (download_triple (S := S.rehost B' limit) (L := L') hl (ends_of_lt hn)).conseq (fun _ h => h) (fun _ _ h => h)
      fun e _ he => hfault' e he.1
  refine Alike.of_triples (download_quiet hq locations) (download_quiet (S := S.rehost B' limit) hq' locations) h h' ⟨rfl, rfl⟩
    ⟨rfl, rfl⟩ (fun r r' u u' hu hu' => ⟨?_, fun ℓ hℓ => ?_, hu.2.2.trans (hs.2.trans hu'.2.2.symm)⟩) w
  · rw [hu.1, hu'.1]
    exact List.map_congr_left fun ℓ hm => hs.1 ℓ (hl ℓ hm)
  · rw [hu.2.1, hu'.2.1]
    exact hs.1 ℓ hℓ

/-- **`get`** returns the same, or throws the same. -/
theorem get_lockstep {locations : List ℕ} (hn : (∀ ℓ ∈ locations, ℓ < S.capacity) → locations.length < 2 ^ 32) :
    Lockstep (SameStore L L') (S.get locations) ((S.rehost B' limit).get locations) := by
  have hchecked := (checkCapacities_triple (S := S) (P := fun _ => True) locations).conseq (fun _ h => h)
    (fun _ _ h => h.1) fun _ _ _ => trivial
  apply (checkCapacities_lockstep locations).bind_post hchecked
  intro _ hl
  apply (logCall_lockstep L L' _).bind
  intro _
  apply (download_lockstep hfault hfault' hq hq' hl (hn hl)).bind
  intro raws
  exact (Lockstep.ofExcept _).bind fun buckets => Lockstep.pure _

variable (hc : S.crypto.Lawful)

include hc

/-- what follows the encoding -/
theorem send_alike {requests : List (ℕ × Bucket)} {writes : List (ℕ × Bytes)} {w₀ w : World} {t₀ t : StorageState β}
    {t' : StorageState β'} (hexec : (requests.mapM S.encodeRequest).exec w₀ t₀ = (.ok writes, w, t))
    (hraw : ∀ ℓ < S.capacity, L.raw t.backend ℓ = L'.raw t'.backend ℓ ∨ ℓ ∈ requests.map Prod.fst)
    (hcalls : t.calls = t'.calls) :
    Alike (SameStore L L') ((do logCall (.set writes); S.upload writes : Run (StorageState β) Unit).exec w t)
      ((do logCall (.set writes); (S.rehost B' limit).upload writes : Run (StorageState β') Unit).exec w t') := by
  have hencoded : List.Forall₂ (fun r w => w.1 = r.1 ∧ Fits S w) requests writes :=
    ((Triple.mapM fun r _ => encodeRequest_fits (P := fun _ => True) hc r).ok trivial hexec).2
  have hfits : ∀ x ∈ writes, Fits S x := fun x hx => by
    obtain ⟨r, -, hr⟩ := exists_of_mem_right hencoded hx
    exact hr.2
  have hfst : writes.map Prod.fst = requests.map Prod.fst := by
    rw [← List.forall₂_eq_eq_eq, List.forall₂_map_left_iff, List.forall₂_map_right_iff]
    exact hencoded.flip.imp fun _ _ h => h.1
  rw [← hfst] at hraw
  let u : StorageState β := { t with calls := t.calls ++ [.set writes] }
  let u' : StorageState β' := { t' with calls := t'.calls ++ [.set writes] }
  have hlogged : u.calls = u'.calls := congrArg (· ++ [.set writes]) hcalls
  have hwritten : ∀ ℓ < S.capacity, L.raw u.backend ℓ = L'.raw u'.backend ℓ ∨ ℓ ∈ writes.map Prod.fst := hraw
  exact upload_alike hfault hfault' hq hq' hfits hwritten hlogged w

/-- **`set`** writes the same, or throws the same. -/
theorem set_lockstep (requests : List (ℕ × Bucket)) :
    Lockstep (SameStore L L') (S.set requests) ((S.rehost B' limit).set requests) := by
  intro w t t' hs
  have hencode : Lockstep (SameStore L L') (requests.mapM S.encodeRequest)
    (requests.mapM (S.rehost B' limit).encodeRequest) := Lockstep.mapM encodeRequest_lockstep
  exact (hencode w t t' hs).bind (fun _ _ h => h) fun writes u u' v hexec hu =>
    send_alike hfault hfault' hq hq' hc hexec (fun ℓ hℓ => Or.inl (hu.1 ℓ hℓ)) hu.2

/-- **`fillWithZeroes`** makes the providers agree, whatever they had. -/
theorem fillWithZeroes_alike {t : StorageState β} {t' : StorageState β'} (hcalls : t.calls = t'.calls) (w : World) :
    Alike (SameStore L L') (S.fillWithZeroes.exec w t) ((S.rehost B' limit).fillWithZeroes.exec w t') := by
  let zeroes : List (ℕ × Bucket) := (List.range S.capacity).map fun i => (i, List.replicate S.Z (ulongMax, []))
  have hencode : Lockstep (fun (u : StorageState β) (u' : StorageState β') => u.calls = u'.calls)
    (zeroes.mapM S.encodeRequest) (zeroes.mapM (S.rehost B' limit).encodeRequest) := Lockstep.mapM encodeRequest_lockstep
  have hmem : ∀ ℓ < S.capacity, ℓ ∈ zeroes.map Prod.fst := by
    intro ℓ hℓ
    rw [List.map_map]
    exact List.mem_map.2 ⟨ℓ, List.mem_range.2 hℓ, rfl⟩
  have hreturns := fillWithZeroes_triple (L := L) hc (P := fun _ => True) w t trivial
  obtain ⟨hresult, hworld, hend⟩ := hencode w t t' hcalls
  rcases hexec : (zeroes.mapM S.encodeRequest).exec w t with ⟨e | writes, v, u⟩
  · have hthrow : S.fillWithZeroes.exec w t = (.error e, v, u) := Prog.exec_bind_error hexec
    rw [hthrow] at hreturns
    exact absurd hreturns (hfault e)
  · rcases hexec' : (zeroes.mapM (S.rehost B' limit).encodeRequest).exec w t' with ⟨r, v', u'⟩
    rw [hexec, hexec'] at hresult hworld hend
    simp only at hresult hworld hend
    subst hresult hworld
    have hset : S.fillWithZeroes.exec w t = _ := Prog.exec_bind_ok hexec
    have hset' : (S.rehost B' limit).fillWithZeroes.exec w t' = _ := Prog.exec_bind_ok hexec'
    rw [hset, hset']
    exact send_alike hfault hfault' hq hq' hc hexec (fun ℓ hℓ => Or.inr (hmem ℓ hℓ)) hend

end Lockstep

theorem padBucket_rehost {β β' : Type} (S : StorageAdapter β) (B : Backend β') (limit : ℕ) (b : Bucket) :
    (S.rehost B limit).padBucket b = S.padBucket b := by
  induction b with
  | nil => rfl
  | cons x b ih =>
    rw [padBucket, padBucket, ih]
    rfl

theorem padRange_rehost {β β' : Type} (S : StorageAdapter β) (B : Backend β') (limit : ℕ) (range : List (ℕ × Bucket)) :
    (S.rehost B limit).padRange range = S.padRange range := by
  induction range with
  | nil => rfl
  | cons r range ih =>
    rw [padRange, padRange, ih, padBucket_rehost]
    rfl

end StorageAdapter

/-! ## The ORAM over another provider -/

namespace Oram

/-- the same ORAM over another provider, with a batch limit of its own -/
def rehost {β β' μ : Type} (O : Oram β μ) (B : Backend β') (batchLimit : ℕ) : Oram β' μ :=
  { storage := O.storage.rehost B batchLimit, map := O.map, stash := O.stash, dataSize := O.dataSize, Z := O.Z,
    height := O.height, batchSize := O.batchSize }

/-- a call, or a bulk load, which returns the data in the order it leaves it -/
def use {β μ : Type} (O : Oram β μ) : Call ⊕ List Block → Run (OramState β μ) (Reply ⊕ List Block)
  | .inl call => do return .inl (← O.exec call)
  | .inr data => do return .inr (← O.load data)

/-- an ORAM that is constructed with `initialize` and then used, by a caller that goes on after an exception -/
def hosted {β μ : Type} (O : Oram β μ) (uses : List (Call ⊕ List Block)) :
    Run (OramState β μ) (List (Except Exception (Reply ⊕ List Block))) := do
  O.construct
  uses.mapM fun use => Prog.attempt (O.use use)

/-- the locations of a path are added once each -/
theorem pathLocations_nodup {β μ : Type} (O : Oram β μ) (leaf : ℕ) {path : List ℕ} (h : path.Nodup) :
    (O.pathLocations leaf path).Nodup := by
  unfold pathLocations
  induction List.range O.height generalizing path with
  | nil => exact h
  | cons level levels ih => exact ih h.insert

section

variable {β β' μ : Type} {O : Oram β μ} {B' : Backend β'} {limit : ℕ}
  (L : LawfulBackend O.storage.backend O.storage.capacity O.storage.blockSize)
  (L' : LawfulBackend B' O.storage.capacity O.storage.blockSize)

/-- states that differ in the provider, and in what was reported to a subscriber -/
structure SameData (s : OramState β μ) (s' : OramState β' μ) : Prop where
  storage : StorageAdapter.SameStore L L' s.storage s'.storage
  map : s.map = s'.map
  stash : s.stash = s'.stash
  cache : s.cache = s'.cache

variable {L L'}

theorem onStorage_lockstep {α : Type} {m : Run (StorageState β) α} {m' : Run (StorageState β') α}
    (h : Lockstep (StorageAdapter.SameStore L L') m m') :
    Lockstep (SameData L L') (onStorage m : Run (OramState β μ) α) (onStorage m' : Run (OramState β' μ) α) :=
  h.zoom (fun _ _ h => h.storage) fun _ _ _ _ h ht => { h with storage := ht }

theorem onMap_lockstep {α : Type} (m : Run μ α) :
    Lockstep (SameData L L') (onMap m : Run (OramState β μ) α) (onMap m : Run (OramState β' μ) α) :=
  (Lockstep.refl m).zoom (fun _ _ h => h.map) fun _ _ _ _ h ht => { h with map := ht }

theorem onStash_lockstep {α : Type} (m : Run Stash α) :
    Lockstep (SameData L L') (onStash m : Run (OramState β μ) α) (onStash m : Run (OramState β' μ) α) :=
  (Lockstep.refl m).zoom (fun _ _ h => h.stash) fun _ _ _ _ h ht => { h with stash := ht }

theorem getRandomULong_lockstep {σ σ' : Type} {R : σ → σ' → Prop} (max : ℕ) :
    Lockstep R (getRandomULong max : Run σ ℕ) (getRandomULong max : Run σ' ℕ) :=
  (Lockstep.world _).bind fun _ => Lockstep.pure _

theorem shuffle_lockstep {σ σ' α : Type} {R : σ → σ' → Prop} (l : List α) :
    Lockstep R (shuffle l : Run σ (List α)) (shuffle l : Run σ' (List α)) := by
  have hdraw : ∀ max, Lockstep R (getRandomUInt max : Run σ ℕ) (getRandomUInt max : Run σ' ℕ) := fun max =>
    (Lockstep.world _).bind fun _ => Lockstep.pure _
  unfold shuffle
  exact Lockstep.ite (Lockstep.foldlM (fun l i => (hdraw _).bind fun j => Lockstep.pure _) l) (Lockstep.pure l)

theorem addBlocks_lockstep (blocks : List Block) :
    Lockstep (SameData L L') (O.addBlocks blocks) ((O.rehost B' limit).addBlocks blocks) :=
  Lockstep.forM fun b => Lockstep.ite (onStash_lockstep (O.stash.add b.1 b.2)) (Lockstep.pure _)

theorem fillBucket_lockstep (n : ℕ) (toInsert : List Block) :
    Lockstep (SameData L L') (O.fillBucket n toInsert) ((O.rehost B' limit).fillBucket n toInsert) := by
  induction n generalizing toInsert with
  | zero => exact Lockstep.pure _
  | succ n ih =>
    rw [fillBucket, fillBucket]
    cases toInsert.getLast? with
    | some b => exact (ih _).bind fun rest => Lockstep.pure _
    | none =>
      have hdata : Lockstep (SameData L L') (getRandomBlock O.dataSize : Run (OramState β μ) _)
        (getRandomBlock O.dataSize : Run (OramState β' μ) _) := (Lockstep.world _).bind fun _ => Lockstep.pure _
      exact hdata.bind fun data => (ih _).bind fun rest => Lockstep.pure _

theorem scanStash_lockstep (leaf level : ℕ) (l : List Block) (i : ℕ) (acc : Scan) :
    Lockstep (SameData L L') (O.scanStash leaf level l i acc) ((O.rehost B' limit).scanStash leaf level l i acc) := by
  induction l generalizing i acc with
  | nil => exact Lockstep.pure _
  | cons b l ih =>
    rw [scanStash, scanStash]
    apply (onMap_lockstep (O.map.get b.1)).bind
    intro entryLeaf
    exact Lockstep.ite (Lockstep.ite (Lockstep.pure _) (ih _ _)) (ih _ _)

theorem writeLevels_lockstep (leaf levels : ℕ) (e : Eviction) :
    Lockstep (SameData L L') (O.writeLevels leaf levels e) ((O.rehost B' limit).writeLevels leaf levels e) := by
  induction levels generalizing e with
  | zero => exact Lockstep.pure _
  | succ level ih =>
    rw [writeLevels, writeLevels, writeLevel, writeLevel]
    refine Lockstep.bind ?_ fun e' => ih e'
    apply (scanStash_lockstep leaf level _ _ _).bind
    intro scan
    exact (fillBucket_lockstep _ _).bind fun bucket => Lockstep.pure _

theorem writePath_lockstep (leaf : ℕ) : Lockstep (SameData L L') (O.writePath leaf) ((O.rehost B' limit).writePath leaf) := by
  unfold writePath
  apply (onStash_lockstep InMemoryStashAdapter.getAll).bind
  intro currentStash
  apply (writeLevels_lockstep leaf O.height _).bind
  intro e
  apply Lockstep.bind (Lockstep.modify fun s s' h => { h with cache := by rw [h.cache] })
  intro _
  exact Lockstep.forM fun removed => onStash_lockstep _

theorem cacheDownloaded_rehost (toGet : List ℕ) (blocks : List Block) (i : ℕ) (bucket : Bucket)
    (cache : UnorderedMap ℕ Bucket) :
    (O.rehost B' limit).cacheDownloaded toGet blocks i bucket cache = O.cacheDownloaded toGet blocks i bucket cache := by
  induction blocks generalizing i bucket cache with
  | nil => rfl
  | cons b blocks ih =>
    rw [cacheDownloaded, cacheDownloaded, ih, ih]
    rfl

/-- the set of locations is all that `readPath` makes without the stash -/
theorem prefetch_lockstep (requests : List Block) :
    Lockstep (SameData L L') (O.prefetch requests) ((O.rehost B' limit).prefetch requests) :=
  Lockstep.foldlM (fun (locations : List ℕ) (request : Block) => (onMap_lockstep (O.map.get request.1)).bind fun leaf =>
    Lockstep.pure (O.pathLocations leaf locations)) []

/-- the locations of a batch are collected once each -/
theorem prefetch_nodup (requests : List Block) :
    Triple (fun _ => True) (O.prefetch requests) (fun locations _ => locations.Nodup) fun _ _ => True := by
  unfold prefetch
  refine (Triple.foldlM (fun _ (locations : List ℕ) _ => locations.Nodup) (fun locations request rest _ => ?_) []).pre
    fun _ _ => List.nodup_nil
  apply Triple.bind (Q := fun _ _ => locations.Nodup)
  · intro w s hs
    rcases (onMap (O.map.get request.1)).exec w s with ⟨e | leaf, w', s'⟩
    · trivial
    · exact hs
  · intro leaf
    exact Triple.pure fun _ hs => pathLocations_nodup O leaf hs

variable (hfault : ∀ e, ¬ L.fault e) (hfault' : ∀ e, ¬ L'.fault e) (hq : O.storage.backend.Quiet) (hq' : B'.Quiet)

section Reads

variable (hcapacity : O.storage.capacity < 2 ^ 32)

include hfault hfault' hq hq' hcapacity

theorem getCache_lockstep {locations : List ℕ} (hnodup : locations.Nodup) (dryRun : Bool) :
    Lockstep (SameData L L') (O.getCache locations dryRun) ((O.rehost B' limit).getCache locations dryRun) := by
  unfold getCache
  apply Lockstep.read_bind
  intro w s s' h
  rw [h.cache]
  have hiterate : Lockstep (SameData L L') (iterate locations) (iterate locations) := Lockstep.world _
  refine (hiterate.bind_post (Q := fun order => order.Perm locations) ?_ fun order hperm => ?_) w s s' h
  · exact (iterate_triple (P := fun _ => True) (E := fun _ _ => True) locations).post fun _ _ hs => hs.1
  · -- locations that differ and are in the storage are few
    have hfew : ∀ {missing : List ℕ}, missing.Sublist order → (∀ ℓ ∈ missing, ℓ < O.storage.capacity) →
        missing.length < 2 ^ 32 := by
      intro missing hsub hlt
      have hcard : missing.toFinset ⊆ Finset.range O.storage.capacity := fun ℓ hℓ =>
        Finset.mem_range.2 (hlt ℓ (List.mem_toFinset.1 hℓ))
      have hle := Finset.card_le_card hcard
      rw [List.toFinset_card_of_nodup (hsub.nodup (hperm.nodup_iff.2 hnodup)), Finset.card_range] at hle
      exact hle.trans_lt hcapacity
    refine Lockstep.ite ?_ (Lockstep.pure _)
    apply (onStorage_lockstep (StorageAdapter.get_lockstep hfault hfault' hq hq' (hfew List.filter_sublist))).bind
    intro downloaded
    refine Lockstep.bind (Lockstep.modify fun s s' h => { h with cache := ?_ }) fun _ => Lockstep.pure _
    rw [h.cache, cacheDownloaded_rehost]

theorem readPath_lockstep (leaf : ℕ) {path : List ℕ} (hnodup : path.Nodup) (putInStash : Bool) :
    Lockstep (SameData L L') (O.readPath leaf path putInStash) ((O.rehost B' limit).readPath leaf path putInStash) := by
  unfold readPath
  refine Lockstep.ite ?_ (Lockstep.pure _)
  apply (getCache_lockstep hfault hfault' hq hq' hcapacity (pathLocations_nodup O leaf hnodup) false).bind
  intro blocks
  exact (addBlocks_lockstep blocks).bind fun _ => Lockstep.pure _

theorem access_lockstep (read : Bool) (block : ℕ) (data response : Bytes) :
    Lockstep (SameData L L') (O.access read block data response) ((O.rehost B' limit).access read block data response) := by
  have hrest : ∀ leaf, Lockstep (SameData L L') (do
      let response ← onStash (InMemoryStashAdapter.get block response)
      O.writePath leaf
      return response) (do
      let response ← onStash (InMemoryStashAdapter.get block response)
      (O.rehost B' limit).writePath leaf
      return response) := fun leaf =>
    (onStash_lockstep _).bind fun r => (writePath_lockstep leaf).bind fun _ => Lockstep.pure r
  unfold access
  apply (onMap_lockstep (O.map.get block)).bind
  intro previousPosition
  apply (getRandomULong_lockstep _).bind
  intro leaf
  apply (onMap_lockstep (O.map.set block leaf)).bind
  intro _
  apply (readPath_lockstep hfault hfault' hq hq' hcapacity previousPosition List.nodup_nil true).bind
  intro _
  refine Lockstep.ite ?_ (by simpa using hrest previousPosition)
  exact (onStash_lockstep (O.stash.update block data)).bind fun _ => hrest previousPosition

end Reads

variable (hc : O.storage.crypto.Lawful)

include hfault hfault' hq hq' hc

theorem syncCache_lockstep : Lockstep (SameData L L') O.syncCache (O.rehost B' limit).syncCache := by
  unfold syncCache
  apply Lockstep.read_bind
  intro w s s' h
  rw [h.cache]
  have hiterate : Lockstep (SameData L L') (iterate s'.cache.toList) (iterate s'.cache.toList) := Lockstep.world _
  refine hiterate.bind (fun range => ?_) w s s' h
  have hpad : Lockstep (SameData L L')
      (Prog.modify fun s => { s with cache := s.cache.assignAll (O.storage.padRange range) } : Run (OramState β μ) Unit)
      (Prog.modify fun s => { s with cache := s.cache.assignAll ((O.rehost B' limit).storage.padRange range) } :
        Run (OramState β' μ) Unit) := by
    apply Lockstep.modify
    intro s s' h
    refine { h with cache := ?_ }
    rw [h.cache]
    exact congrArg s'.cache.assignAll (StorageAdapter.padRange_rehost _ _ _ range).symm
  apply hpad.bind
  intro _
  apply (onStorage_lockstep (StorageAdapter.set_lockstep hfault hfault' hq hq' hc range)).bind
  intro _
  exact Lockstep.modify fun s s' h => { h with cache := rfl }

variable (hcapacity : O.storage.capacity < 2 ^ 32)

include hcapacity

omit hc in
theorem batchLoop_lockstep (requests : List Block) (fuel i : ℕ) (response : List Bytes) :
    Lockstep (SameData L L') (O.batchLoop requests fuel i response)
      ((O.rehost B' limit).batchLoop requests fuel i response) := by
  induction fuel generalizing i response with
  | zero => exact Lockstep.throw _
  | succ fuel ih =>
    unfold batchLoop
    exact Lockstep.ite ((access_lockstep hfault hfault' hq hq' hcapacity _ _ _ _).bind fun _ => ih _ _) (Lockstep.pure _)

theorem multiple_lockstep (requests : List Block) (response : List Bytes) :
    Lockstep (SameData L L') (O.multiple requests response) ((O.rehost B' limit).multiple requests response) := by
  unfold multiple
  apply Lockstep.ite (Lockstep.throw _)
  apply (prefetch_lockstep requests).bind_post (prefetch_nodup requests)
  intro locations hnodup
  apply (getCache_lockstep hfault hfault' hq hq' hcapacity hnodup true).bind
  intro _
  refine Lockstep.bind (batchLoop_lockstep hfault hfault' hq hq' hcapacity requests _ _ _) fun answers => ?_
  exact (syncCache_lockstep hfault hfault' hq hq' hc).bind fun _ => Lockstep.pure answers

/-- **A call** -/
theorem exec_lockstep (call : Call) : Lockstep (SameData L L') (O.exec call) ((O.rehost B' limit).exec call) := by
  have hsync : Lockstep (SameData L L') O.syncCache (O.rehost B' limit).syncCache :=
    syncCache_lockstep hfault hfault' hq hq' hc
  cases call with
  | get block =>
    have haccess : Lockstep (SameData L L') (O.access true block [] []) ((O.rehost B' limit).access true block [] []) :=
      access_lockstep hfault hfault' hq hq' hcapacity true block [] []
    exact (haccess.bind fun r => hsync.bind fun _ => Lockstep.pure r).bind fun r => Lockstep.pure _
  | put block data =>
    have haccess : Lockstep (SameData L L') (O.access false block data []) ((O.rehost B' limit).access false block data []) :=
      access_lockstep hfault hfault' hq hq' hcapacity false block data []
    exact (haccess.bind fun _ => hsync).bind fun _ => Lockstep.pure _
  | multiple requests =>
    exact (multiple_lockstep hfault hfault' hq hq' hc hcapacity requests []).bind fun rs => Lockstep.pure _

omit hcapacity

/-! ## Construction and bulk load -/

omit hc hfault hfault' hq hq' in
theorem padLoop_rehost (fuel i : ℕ) (bucket : Bucket) :
    (O.rehost B' limit).padLoop fuel i bucket = O.padLoop fuel i bucket := by
  induction fuel generalizing i bucket with
  | zero => rfl
  | succ fuel ih =>
    rw [padLoop, padLoop, ih]
    rfl

omit hc hfault hfault' hq hq' in
theorem loadRecord_lockstep (bucketCount : ℕ) (l : Loading) (record : Block) :
    Lockstep (SameData L L') (O.loadRecord bucketCount l record) ((O.rehost B' limit).loadRecord bucketCount l record) := by
  apply (getRandomULong_lockstep _).bind
  intro leaf
  apply (onMap_lockstep (O.map.set record.1 _)).bind
  intro _
  exact Lockstep.ite (Lockstep.pure _) (Lockstep.pure _)

theorem load_lockstep (data : List Block) : Lockstep (SameData L L') (O.load data) ((O.rehost B' limit).load data) := by
  have hset : ∀ (data : List Block) (requests : List (ℕ × Bucket)), Lockstep (SameData L L') (do
      onStorage (O.storage.set requests)
      return data) (do
      onStorage ((O.rehost B' limit).storage.set requests)
      return data) := fun data requests =>
    (onStorage_lockstep (StorageAdapter.set_lockstep hfault hfault' hq hq' hc requests)).bind fun _ => Lockstep.pure _
  unfold load
  apply Lockstep.ite (Lockstep.throw _)
  apply (shuffle_lockstep data).bind
  intro data
  apply Lockstep.bind (Lockstep.foldlM (loadRecord_lockstep _) _)
  intro l
  apply Lockstep.ite
  · have hpad : (O.rehost B' limit).padLoop ((O.rehost B' limit).Z + 1) 0 l.bucket = O.padLoop (O.Z + 1) 0 l.bucket :=
      padLoop_rehost _ _ _
    rw [hpad]
    cases O.padLoop (O.Z + 1) 0 l.bucket with
    | none => exact Lockstep.bind (Lockstep.throw _) fun _ => Lockstep.pure _
    | some bucket => exact hset data _
  · exact hset data _

/-- the constructor makes the states agree in what the providers have -/
theorem construct_alike {s : OramState β μ} {s' : OramState β' μ} (hcalls : s.storage.calls = s'.storage.calls)
    (hmap : s.map = s'.map) (hstash : s.stash = s'.stash) (hcache : s.cache = s'.cache) (w : World) :
    Alike (SameData L L') (O.construct.exec w s) ((O.rehost B' limit).construct.exec w s') := by
  have hfill : Alike (SameData L L') ((onStorage O.storage.fillWithZeroes).exec w s)
      ((onStorage (O.rehost B' limit).storage.fillWithZeroes).exec w s') := by
    have hzeroes : Alike (StorageAdapter.SameStore L L') (O.storage.fillWithZeroes.exec w s.storage)
        ((O.storage.rehost B' limit).fillWithZeroes.exec w s'.storage) :=
      StorageAdapter.fillWithZeroes_alike hfault hfault' hq hq' hc hcalls w
    obtain ⟨hresult, hworld, hstore⟩ := hzeroes
    exact ⟨hresult, hworld, hstore, hmap, hstash, hcache⟩
  refine hfill.bind (fun _ _ h => h) fun _ t t' v _ ht => ?_
  have hpositions : Lockstep (SameData L L')
      ((List.range O.blocks).forM fun i => do
        let leaf ← getRandomULong (shlOne (O.height - 1))
        onMap (O.map.set i leaf) : Run (OramState β μ) Unit)
      ((List.range O.blocks).forM fun i => do
        let leaf ← getRandomULong (shlOne (O.height - 1))
        onMap (O.map.set i leaf) : Run (OramState β' μ) Unit) :=
    Lockstep.forM fun i => (getRandomULong_lockstep _).bind fun leaf => onMap_lockstep _
  exact hpositions v t t' ht

variable (hcapacity : O.storage.capacity < 2 ^ 32)

include hcapacity

/-- **Every public method** -/
theorem use_lockstep (use : Call ⊕ List Block) : Lockstep (SameData L L') (O.use use) ((O.rehost B' limit).use use) := by
  cases use with
  | inl call => exact (exec_lockstep hfault hfault' hq hq' hc hcapacity call).bind fun _ => Lockstep.pure _
  | inr data => exact (load_lockstep hfault hfault' hq hq' hc data).bind fun _ => Lockstep.pure _

/-- **Providers are interchangeable.** Two ORAMs with the same sizes, key, map and stash, over two providers of fewer than 2^32
locations that return what was last written, do not throw and do not draw, are constructed in one world, and used in any
way: calls, also invalid ones, and bulk loads, by a caller that goes on after an exception. Whatever the providers had before
and whatever the batch limits are, the answers and the exceptions are the same, the storages are asked for the same, and the
states have the same data. -/
theorem providers_interchangeable {s : OramState β μ} {s' : OramState β' μ}
    (hcalls : s.storage.calls = s'.storage.calls) (hmap : s.map = s'.map) (hstash : s.stash = s'.stash)
    (hcache : s.cache = s'.cache) (uses : List (Call ⊕ List Block)) (w : World) :
    Alike (SameData L L') ((O.hosted uses).exec w s) (((O.rehost B' limit).hosted uses).exec w s') := by
  have hconstruct : Alike (SameData L L') (O.construct.exec w s) ((O.rehost B' limit).construct.exec w s') :=
    construct_alike hfault hfault' hq hq' hc hcalls hmap hstash hcache w
  refine hconstruct.bind (fun _ _ h => h) fun _ t t' v _ ht => ?_
  have huses : Lockstep (SameData L L') (uses.mapM fun use => Prog.attempt (O.use use))
    (uses.mapM fun use => Prog.attempt ((O.rehost B' limit).use use)) :=
    Lockstep.mapM fun use => (use_lockstep hfault hfault' hq hq' hc hcapacity use).attempt
  exact huses v t t' ht

end

/-- The small ORAM in memory and over a file, with another batch limit: the last but one call names no block of the map. -/
theorem providers_interchangeable_small :
    Alike (SameData (O := smallOram) (inMemoryBackend_lawful smallStorage.capacity smallStorage.blockSize)
        (fileBackend_lawful smallStorage.capacity smallStorage.blockSize))
      ((smallOram.hosted [.inl (.put 0 [7]), .inr [(1, [8]), (2, [])], .inl (.get 9), .inl (.get 0)]).exec zeroWorld
        (zeroState smallStorage 4))
      (((smallOram.rehost (fileBackend smallStorage.capacity smallStorage.blockSize) 1).hosted
        [.inl (.put 0 [7]), .inr [(1, [8]), (2, [])], .inl (.get 9), .inl (.get 0)]).exec zeroWorld
        (emptyFile smallStorage 4)) := by
  have hcapacity : smallOram.storage.capacity < 2 ^ 32 := by decide
  have hcalls : (zeroState smallStorage 4).storage.calls = (emptyFile smallStorage 4).storage.calls := rfl
  exact providers_interchangeable (fun _ h => h) (fun _ h => h) (inMemoryBackend_quiet _ _) (fileBackend_quiet _ _)
    plainCrypto_lawful hcapacity hcalls rfl rfl rfl _ zeroWorld

end Oram

end PathOram
