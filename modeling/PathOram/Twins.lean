/-
States that no caller can tell apart.

Two states are `Twin` if they agree in what the methods read: the bytes of the provider, the array, the cache, and the
stash up to the order in which its table has the blocks. The events, the record of calls and the subscription may differ.
A table may be iterated in any order, so whatever a method does from a state it may do from its twin.

- `exec_twin`: a call reaches twins from twins.
- `attempts_outcomes`: **twins answer every sequence of calls alike**, `run_outcomes` up to the first that throws.
-/
import PathOram.FileSystem
import PathOram.Lib.Simulation

namespace PathOram

open Lib

/-! ## Random numbers and tables -/

section World

variable {σ σ' : Type} {R : σ → σ' → Prop}

theorem randBytes_simulates : Simulates R (randBytes : Run σ ℕ) (randBytes : Run σ' ℕ) := by
  apply Simulates.world
  intro w t
  exact ⟨⟨fun n => Nat.casesOn n (w.rand 0) t.rand, t.iter⟩, rfl⟩

theorem getRandomBlock_simulates (n : ℕ) : Simulates R (getRandomBlock n) (getRandomBlock n) :=
  randBytes_simulates.bind fun _ => Simulates.pure _

theorem getRandomULong_simulates (max : ℕ) :
    Simulates R (getRandomULong max : Run σ ℕ) (getRandomULong max : Run σ' ℕ) :=
  randBytes_simulates.bind fun _ => Simulates.pure _

theorem getRandomUInt_simulates (max : ℕ) : Simulates R (getRandomUInt max : Run σ ℕ) (getRandomUInt max : Run σ' ℕ) :=
  randBytes_simulates.bind fun _ => Simulates.pure _

/-- two lists of the same entries may be met in the same order -/
theorem iterate_simulates {α : Type} {l l' : List α} (h : l.Perm l') :
    Simulates R (iterate l : Run σ (List α)) (iterate l' : Run σ' (List α)) := by
  apply Simulates.world
  intro w t
  obtain ⟨k, hk⟩ := exists_arrange ((arrange_perm (w.iter 0) l).trans h)
  exact ⟨⟨t.rand, fun n => Nat.casesOn n k t.iter⟩, Prod.ext hk rfl⟩

theorem shuffle_simulates {α : Type} (l : List α) :
    Simulates R (shuffle l : Run σ (List α)) (shuffle l : Run σ' (List α)) := by
  unfold shuffle
  refine Simulates.ite (Simulates.foldlM (fun l i _ => ?_) l) (Simulates.pure l)
  exact (getRandomUInt_simulates _).bind fun j => Simulates.pure _

end World

/-! ## The stash -/

/-- tables with the same entries -/
def StashTwin (stash stash' : Stash) : Prop := ∀ k, stash.lookup k = stash'.lookup k

namespace StashTwin

variable {stash stash' : Stash}

theorem mem_iff (h : StashTwin stash stash') {k : ℕ} : k ∈ stash ↔ k ∈ stash' := by
  rw [UnorderedMap.mem_iff_lookup, UnorderedMap.mem_iff_lookup, h k]

theorem toList_perm (h : StashTwin stash stash') : stash.toList.Perm stash'.toList := by
  have hnodup : ∀ st : Stash, st.toList.Nodup := fun st => List.Nodup.of_map Prod.fst st.nodup_keys
  apply (List.perm_ext_iff_of_nodup (hnodup _) (hnodup _)).2
  intro b
  rw [show b = (b.1, b.2) from rfl, UnorderedMap.mem_toList, UnorderedMap.mem_toList, h b.1]

theorem size_eq (h : StashTwin stash stash') : stash.size = stash'.size := by
  rw [← UnorderedMap.length_toList, ← UnorderedMap.length_toList, h.toList_perm.length_eq]

end StashTwin

namespace InMemoryStashAdapter

variable (A : InMemoryStashAdapter)

theorem getAll_simulates : Simulates StashTwin getAll getAll :=
  Simulates.read_bind fun stash stash' h =>
    ((iterate_simulates h.toList_perm).bind fun response => shuffle_simulates response) stash stash' h

theorem checkOverflow_simulates (block : ℕ) : Simulates StashTwin (A.checkOverflow block) (A.checkOverflow block) := by
  apply Simulates.read_bind
  intro stash stash' h
  simp only [h.size_eq, h.mem_iff]
  exact (Simulates.ite (Simulates.throw _) (Simulates.pure ())) stash stash' h

theorem add_simulates (block : ℕ) (data : Bytes) : Simulates StashTwin (A.add block data) (A.add block data) := by
  apply (A.checkOverflow_simulates block).bind
  intro _
  apply Simulates.modify
  intro stash stash' h k
  rw [UnorderedMap.lookup_emplace, UnorderedMap.lookup_emplace, h k]
  simp only [h.mem_iff]

theorem update_simulates (block : ℕ) (data : Bytes) : Simulates StashTwin (A.update block data) (A.update block data) := by
  apply (A.checkOverflow_simulates block).bind
  intro _
  apply Simulates.modify
  intro stash stash' h k
  rw [UnorderedMap.lookup_insert_eq, UnorderedMap.lookup_insert_eq, h k]

theorem get_simulates (block : ℕ) (response : Bytes) : Simulates StashTwin (get block response) (get block response) := by
  apply Simulates.read_bind
  intro stash stash' h
  rw [h block]
  cases AList.lookup block stash' with
  | some data => exact Simulates.pure _ stash stash' h
  | none => exact Simulates.pure _ stash stash' h

theorem remove_simulates (block : ℕ) : Simulates StashTwin (remove block) (remove block) := by
  apply Simulates.modify
  intro stash stash' h k
  rw [UnorderedMap.lookup_erase_eq, UnorderedMap.lookup_erase_eq, h k]

end InMemoryStashAdapter

/-! ## The storage -/

/-- no method of the provider asks the world -/
structure Backend.Plain {β : Type} (B : Backend β) : Prop where
  getInternal : ∀ location, Simulates Eq (B.getInternal location) (B.getInternal location)
  setInternal : ∀ location raw, Simulates Eq (B.setInternal location raw) (B.setInternal location raw)
  getInternalBatch : ∀ get, B.getInternalBatch = some get → ∀ locations response,
    Simulates Eq (get locations response) (get locations response)
  setInternalBatch : ∀ set, B.setInternalBatch = some set → ∀ writes, Simulates Eq (set writes) (set writes)

theorem fileBackend_plain (capacity blockSize : ℕ) : (fileBackend capacity blockSize).Plain where
  getInternal location := Simulates.of_exec (f := fun file => (.ok (file.read location), file)) fun _ _ => rfl
  setInternal location raw := Simulates.of_exec (f := fun file => (.ok (), file.write location raw)) fun _ _ => rfl
  getInternalBatch _ h := by simp [fileBackend] at h
  setInternalBatch _ h := by simp [fileBackend] at h

/-- the same bytes -/
def StorageTwin {β : Type} (t t' : StorageState β) : Prop := t.backend = t'.backend

namespace StorageAdapter

variable {β : Type} {S : StorageAdapter β}

theorem emit_simulates (supported : Bool) (event : StorageEvent) :
    Simulates (StorageTwin (β := β)) (emit supported event) (emit supported event) := by
  have hsame : ∀ t : StorageState β,
      (if t.subscribed && supported then { t with events := t.events ++ [event] } else t).backend = t.backend := by
    intro t
    split_ifs <;> rfl
  exact Simulates.modify fun t t' h => (hsame t).trans (h.trans (hsame t').symm)

theorem logCall_simulates (call : StorageCall) : Simulates (StorageTwin (β := β)) (logCall call) (logCall call) :=
  Simulates.modify fun _ _ h => h

theorem backend_simulates {α : Type} {m : Run β α} (h : Simulates Eq m m) :
    Simulates StorageTwin (Prog.zoom (StorageState.backendLens β) m) (Prog.zoom (StorageState.backendLens β) m) :=
  h.zoom (fun _ _ h => h) fun _ _ _ _ _ h => h

variable (hb : S.backend.Plain)

include hb

theorem getAndRecord_simulates (location : ℕ) :
    Simulates StorageTwin (S.getAndRecord location) (S.getAndRecord location) :=
  (backend_simulates (hb.getInternal location)).bind fun _ => (emit_simulates _ _).bind fun _ => Simulates.pure _

theorem setAndRecord_simulates (location : ℕ) (raw : Bytes) :
    Simulates StorageTwin (S.setAndRecord location raw) (S.setAndRecord location raw) :=
  (backend_simulates (hb.setInternal location raw)).bind fun _ => emit_simulates _ _

theorem getInternalLoop_simulates (locations : List ℕ) (fuel i : ℕ) (response : List Bytes) :
    Simulates StorageTwin (S.getInternalLoop locations fuel i response) (S.getInternalLoop locations fuel i response) := by
  induction fuel generalizing i response with
  | zero => exact Simulates.throw _
  | succ fuel ih =>
    unfold getInternalLoop
    split_ifs with h
    · exact (getAndRecord_simulates hb _).bind fun raw => ih _ _
    · exact Simulates.pure _

theorem getAndRecordBatch_simulates (locations : List ℕ) (response : List Bytes) :
    Simulates StorageTwin (S.getAndRecordBatch locations response) (S.getAndRecordBatch locations response) := by
  have hbatch : Simulates StorageTwin (S.getInternalBatch locations response) (S.getInternalBatch locations response) := by
    unfold getInternalBatch
    cases hget : S.backend.getInternalBatch with
    | some get => exact backend_simulates (hb.getInternalBatch get hget locations response)
    | none => exact getInternalLoop_simulates hb locations _ _ _
  exact hbatch.bind fun _ => (emit_simulates _ _).bind fun _ => Simulates.pure _

theorem setAndRecordBatch_simulates (writes : List (ℕ × Bytes)) :
    Simulates StorageTwin (S.setAndRecordBatch writes) (S.setAndRecordBatch writes) := by
  have hbatch : Simulates StorageTwin (S.setInternalBatch writes) (S.setInternalBatch writes) := by
    unfold setInternalBatch
    cases hset : S.backend.setInternalBatch with
    | some set => exact backend_simulates (hb.setInternalBatch set hset writes)
    | none => exact Simulates.forM fun write _ => setAndRecord_simulates hb write.1 write.2
  exact hbatch.bind fun _ => emit_simulates _ _

theorem getSlices_simulates (locations : List ℕ) (pointer : ℕ) (response : List Bytes) :
    Simulates StorageTwin (S.getSlices locations pointer response) (S.getSlices locations pointer response) := by
  induction hn : locations.length - pointer using Nat.strong_induction_on generalizing pointer response with
  | _ n ih =>
    rw [getSlices]
    split_ifs with h
    · exact (getAndRecordBatch_simulates hb _ _).bind fun response => ih _ (by omega) (pointer + S.batchLimit) response rfl
    · exact Simulates.pure _

theorem setSlices_simulates (writes : List (ℕ × Bytes)) (pointer : ℕ) :
    Simulates StorageTwin (S.setSlices writes pointer) (S.setSlices writes pointer) := by
  induction hn : writes.length - pointer using Nat.strong_induction_on generalizing pointer with
  | _ n ih =>
    rw [setSlices]
    split_ifs with h
    · exact (setAndRecordBatch_simulates hb _).bind fun _ => ih _ (by omega) (pointer + S.batchLimit) rfl
    · exact Simulates.pure _

theorem download_simulates (locations : List ℕ) : Simulates StorageTwin (S.download locations) (S.download locations) := by
  unfold download
  split
  · exact (getAndRecord_simulates hb _).bind fun _ => Simulates.pure _
  · exact Simulates.ite (getAndRecordBatch_simulates hb _ _) (getSlices_simulates hb _ 0 _)

theorem upload_simulates (writes : List (ℕ × Bytes)) : Simulates StorageTwin (S.upload writes) (S.upload writes) := by
  unfold upload
  split
  · exact setAndRecord_simulates hb _ _
  · exact Simulates.ite (setAndRecordBatch_simulates hb _) (setSlices_simulates hb _ 0)

theorem get_simulates (locations : List ℕ) : Simulates StorageTwin (S.get locations) (S.get locations) := by
  unfold get
  apply Simulates.bind (Simulates.forM fun location _ => Simulates.ite (Simulates.throw _) (Simulates.pure ()))
  intro _
  apply (logCall_simulates _).bind
  intro _
  apply (download_simulates hb _).bind
  intro raws
  exact (Simulates.ofExcept _).bind fun buckets => Simulates.pure _

theorem set_simulates (requests : List (ℕ × Bucket)) : Simulates StorageTwin (S.set requests) (S.set requests) := by
  unfold set
  refine Simulates.bind (Simulates.mapM fun request _ => ?_) fun writes =>
    (logCall_simulates _).bind fun _ => upload_simulates hb writes
  apply Simulates.bind (Simulates.ite (Simulates.throw _) (Simulates.pure ()))
  intro _
  refine Simulates.ite (Simulates.throw _) ?_
  refine Simulates.bind (Simulates.mapM fun block _ => ?_) fun records => ?_
  · exact Simulates.bind (Simulates.ite (Simulates.throw _) (Simulates.pure ())) fun _ => Simulates.pure _
  · exact (getRandomBlock_simulates _).bind fun iv => (Simulates.ofExcept _).bind fun _ => Simulates.pure _

end StorageAdapter

/-! ## The ORAM -/

/-- states that agree in what the methods read -/
structure Twin {β μ : Type} (s s' : OramState β μ) : Prop where
  storage : StorageTwin s.storage s'.storage
  map : s.map = s'.map
  stash : StashTwin s.stash s'.stash
  cache : s.cache = s'.cache

theorem Twin.symm {β μ : Type} {s s' : OramState β μ} (h : Twin s s') : Twin s' s :=
  ⟨h.storage.symm, h.map.symm, fun k => (h.stash k).symm, h.cache.symm⟩

section

variable {β : Type} {mapCapacity : ℕ} {O : Oram β (PositionArray mapCapacity)}

theorem onStorage_simulates {α : Type} {m : Run (StorageState β) α} (h : Simulates StorageTwin m m) :
    Simulates Twin (Oram.onStorage m : Run (OramState β (PositionArray mapCapacity)) α) (Oram.onStorage m) :=
  h.zoom (fun _ _ h => h.storage) fun _ _ _ _ h ht => { h with storage := ht }

theorem onStash_simulates {α : Type} {m : Run Stash α} (h : Simulates StashTwin m m) :
    Simulates Twin (Oram.onStash m : Run (OramState β (PositionArray mapCapacity)) α) (Oram.onStash m) :=
  h.zoom (fun _ _ h => h.stash) fun _ _ _ _ h ht => { h with stash := ht }

theorem addBlocks_simulates (blocks : List Block) : Simulates Twin (O.addBlocks blocks) (O.addBlocks blocks) :=
  Simulates.forM fun b _ => Simulates.ite (onStash_simulates (O.stash.add_simulates b.1 b.2)) (Simulates.pure _)

theorem fillBucket_simulates (n : ℕ) (toInsert : List Block) :
    Simulates Twin (O.fillBucket n toInsert : Run (OramState β (PositionArray mapCapacity)) Bucket)
      (O.fillBucket n toInsert) := by
  induction n generalizing toInsert with
  | zero => exact Simulates.pure _
  | succ n ih =>
    rw [Oram.fillBucket]
    cases toInsert.getLast? with
    | some b => exact (ih _).bind fun rest => Simulates.pure _
    | none => exact (getRandomBlock_simulates _).bind fun data => (ih _).bind fun rest => Simulates.pure _

section Storage

variable (hb : O.storage.backend.Plain)

include hb

theorem getCache_simulates (locations : List ℕ) (dryRun : Bool) :
    Simulates Twin (O.getCache locations dryRun) (O.getCache locations dryRun) := by
  unfold Oram.getCache
  apply Simulates.read_bind
  intro s s' h
  rw [h.cache]
  refine Simulates.bind (iterate_simulates (List.Perm.refl locations)) (fun order => ?_) s s' h
  refine Simulates.ite ?_ (Simulates.pure _)
  apply (onStorage_simulates (StorageAdapter.get_simulates hb _)).bind
  intro downloaded
  exact Simulates.bind (Simulates.modify fun s s' h => { h with cache := by rw [h.cache] }) fun _ => Simulates.pure _

theorem readPath_simulates (leaf : ℕ) (path : List ℕ) (putInStash : Bool) :
    Simulates Twin (O.readPath leaf path putInStash) (O.readPath leaf path putInStash) := by
  unfold Oram.readPath
  refine Simulates.ite ?_ (Simulates.pure _)
  exact (getCache_simulates hb _ _).bind fun blocks => (addBlocks_simulates blocks).bind fun _ => Simulates.pure _

theorem syncCache_simulates : Simulates Twin O.syncCache O.syncCache := by
  unfold Oram.syncCache
  apply Simulates.read_bind
  intro s s' h
  rw [h.cache]
  refine Simulates.bind (iterate_simulates (List.Perm.refl s'.cache.toList)) (fun range => ?_) s s' h
  apply Simulates.bind (Simulates.modify fun s s' h => { h with cache := by rw [h.cache] })
  intro _
  apply (onStorage_simulates (StorageAdapter.set_simulates hb range)).bind
  intro _
  exact Simulates.modify fun s s' h => { h with cache := rfl }

end Storage

section Map

variable (hmap : O.map = inMemoryPositionMap mapCapacity)

include hmap

theorem mapGet_simulates (i : ℕ) :
    Simulates Twin (Oram.onMap (O.map.get i) : Run (OramState β (PositionArray mapCapacity)) ℕ) (Oram.onMap (O.map.get i)) := by
  have hget : Simulates Eq ((inMemoryPositionMap mapCapacity).get i) ((inMemoryPositionMap mapCapacity).get i) :=
    Simulates.of_exec (f := fun map =>
      (if mapCapacity ≤ i then .error (.blockOutOfBound i mapCapacity) else .ok (map[i]?.getD 0), map))
      fun w map => exec_arrayGet mapCapacity i w map
  rw [hmap]
  exact hget.zoom (fun _ _ h => h.map) fun _ _ _ _ h ht => { h with map := ht }

theorem mapSet_simulates (i leaf : ℕ) :
    Simulates Twin (Oram.onMap (O.map.set i leaf) : Run (OramState β (PositionArray mapCapacity)) Unit)
      (Oram.onMap (O.map.set i leaf)) := by
  have hset : Simulates Eq ((inMemoryPositionMap mapCapacity).set i leaf) ((inMemoryPositionMap mapCapacity).set i leaf) := by
    refine Simulates.of_exec (f := fun map =>
      if mapCapacity ≤ i then (.error (.blockOutOfBound i mapCapacity), map) else (.ok (), map.setIfInBounds i leaf))
      fun w map => ?_
    rw [exec_arraySet]
    split_ifs <;> rfl
  rw [hmap]
  exact hset.zoom (fun _ _ h => h.map) fun _ _ _ _ h ht => { h with map := ht }

theorem scanStash_simulates (leaf level : ℕ) (l : List Block) (i : ℕ) (acc : Oram.Scan) :
    Simulates Twin (O.scanStash leaf level l i acc) (O.scanStash leaf level l i acc) := by
  induction l generalizing i acc with
  | nil => exact Simulates.pure _
  | cons b l ih =>
    rw [Oram.scanStash]
    apply (mapGet_simulates hmap b.1).bind
    intro entryLeaf
    exact Simulates.ite (Simulates.ite (Simulates.pure _) (ih _ _)) (ih _ _)

theorem writeLevels_simulates (leaf levels : ℕ) (e : Oram.Eviction) :
    Simulates Twin (O.writeLevels leaf levels e) (O.writeLevels leaf levels e) := by
  induction levels generalizing e with
  | zero => exact Simulates.pure _
  | succ level ih =>
    rw [Oram.writeLevels, Oram.writeLevel]
    refine Simulates.bind ?_ fun e' => ih e'
    apply (scanStash_simulates hmap leaf level _ _ _).bind
    intro scan
    exact (fillBucket_simulates _ _).bind fun bucket => Simulates.pure _

theorem writePath_simulates (leaf : ℕ) : Simulates Twin (O.writePath leaf) (O.writePath leaf) := by
  unfold Oram.writePath
  apply (onStash_simulates InMemoryStashAdapter.getAll_simulates).bind
  intro cs
  apply (writeLevels_simulates hmap leaf O.height _).bind
  intro e
  apply Simulates.bind (Simulates.modify fun s s' h => { h with cache := by rw [h.cache] })
  intro _
  exact Simulates.forM fun removed _ => onStash_simulates (InMemoryStashAdapter.remove_simulates _)

variable (hb : O.storage.backend.Plain)

include hb

theorem access_simulates (read : Bool) (block : ℕ) (data response : Bytes) :
    Simulates Twin (O.access read block data response) (O.access read block data response) := by
  unfold Oram.access
  apply (mapGet_simulates hmap block).bind
  intro previousPosition
  apply (getRandomULong_simulates _).bind
  intro leaf
  apply (mapSet_simulates hmap block leaf).bind
  intro _
  apply (readPath_simulates hb _ _ _).bind
  intro _
  have hrest : Simulates Twin (do
      let response ← Oram.onStash (InMemoryStashAdapter.get block response)
      O.writePath previousPosition
      return response : Run (OramState β (PositionArray mapCapacity)) Bytes) (do
      let response ← Oram.onStash (InMemoryStashAdapter.get block response)
      O.writePath previousPosition
      return response) :=
    (onStash_simulates (InMemoryStashAdapter.get_simulates block response)).bind fun r =>
      (writePath_simulates hmap previousPosition).bind fun _ => Simulates.pure r
  refine Simulates.ite ?_ (by simpa using hrest)
  exact (onStash_simulates (O.stash.update_simulates block data)).bind fun _ => hrest

theorem batchLoop_simulates (requests : List Block) (fuel i : ℕ) (response : List Bytes) :
    Simulates Twin (O.batchLoop requests fuel i response) (O.batchLoop requests fuel i response) := by
  induction fuel generalizing i response with
  | zero => exact Simulates.throw _
  | succ fuel ih =>
    unfold Oram.batchLoop
    exact Simulates.ite ((access_simulates hmap hb _ _ _ _).bind fun _ => ih _ _) (Simulates.pure _)

theorem multiple_simulates (requests : List Block) (response : List Bytes) :
    Simulates Twin (O.multiple requests response) (O.multiple requests response) := by
  unfold Oram.multiple
  refine Simulates.ite (Simulates.throw _) ?_
  have hprefetch : Simulates Twin (O.prefetch requests) (O.prefetch requests) :=
    Simulates.foldlM (fun locations request _ => (mapGet_simulates hmap request.1).bind fun leaf =>
      readPath_simulates hb leaf locations false) []
  apply hprefetch.bind
  intro locations
  apply (getCache_simulates hb locations true).bind
  intro _
  apply Simulates.bind (batchLoop_simulates hmap hb requests _ _ _)
  intro answers
  exact (syncCache_simulates hb).bind fun _ => Simulates.pure _

/-- **A call reaches twins from twins.** -/
theorem exec_twin (call : Call) : Simulates Twin (O.exec call) (O.exec call) := by
  cases call with
  | get block =>
    refine Simulates.bind ?_ fun _ => Simulates.pure _
    exact (access_simulates hmap hb _ _ _ _).bind fun r => (syncCache_simulates hb).bind fun _ => Simulates.pure r
  | put block data =>
    refine Simulates.bind ?_ fun _ => Simulates.pure _
    exact (access_simulates hmap hb _ _ _ _).bind fun _ => syncCache_simulates hb
  | multiple requests => exact (multiple_simulates hmap hb requests []).bind fun _ => Simulates.pure _

variable {s s' : OramState β (PositionArray mapCapacity)} (h : Twin s s')

include h

/-- **Twins answer every sequence of calls alike**, exceptions included. -/
theorem attempts_outcomes (calls : List Call) : (O.attempts calls).outcomes s = (O.attempts calls).outcomes s' := by
  have hsim : Simulates Twin (O.attempts calls) (O.attempts calls) :=
    Simulates.mapM fun call _ => (exec_twin hmap hb call).attempt
  exact Set.Subset.antisymm (outcomes_subset (hsim s s' h)) (outcomes_subset (hsim s' s h.symm))

/-- and up to the first call that throws -/
theorem run_outcomes (calls : List Call) : (O.run calls).outcomes s = (O.run calls).outcomes s' := by
  have hsim : Simulates Twin (O.run calls) (O.run calls) := Simulates.mapM fun call _ => exec_twin hmap hb call
  exact Set.Subset.antisymm (outcomes_subset (hsim s s' h)) (outcomes_subset (hsim s' s h.symm))

end Map

end

end PathOram
