/-
The methods draw from one tape.

The random generator is a tape of draws and the order of the hash tables a stream that is fixed before. Every method takes
draws from the front of the tape and uses it in no other way, so its outcome has probabilities.

- `getRandomULong_expect`: a draw below a power of two is uniform.
- `SamplingBackend`: a provider that draws in no other way; `inMemoryBackend_samples`, `fileBackend_samples`.
- `access_samples`, `exec_samples`, `run_samples`, `construct_samples`: the methods of an ORAM.
-/
import PathOram.FileSystem
import PathOram.Lib.Draws
import PathOram.Lib.Redraw

namespace PathOram

open Lib
open scoped ENNReal

/-! ## The tape -/

/-- the draws, and the orders of the hash tables -/
def worldTape : Source World (ℕ → ℕ) := ⟨World.mk, World.iter, fun _ _ => rfl⟩

/-- the program takes its draws from the tape -/
abbrev Draws {σ α : Type} (m : Run σ α) : Prop := Samples worldTape m

section Random

variable {σ α : Type}

theorem randBytes_samples : Draws (randBytes : Run σ ℕ) := Samples.draw fun _ _ => rfl

theorem getRandomBlock_samples (n : ℕ) : Draws (getRandomBlock n : Run σ _) := randBytes_samples.bind fun _ => Samples.pure _

theorem getRandomULong_samples (max : ℕ) : Draws (getRandomULong max : Run σ ℕ) :=
  randBytes_samples.bind fun _ => Samples.pure _

theorem getRandomUInt_samples (max : ℕ) : Draws (getRandomUInt max : Run σ ℕ) :=
  randBytes_samples.bind fun _ => Samples.pure _

theorem shuffle_samples (l : List α) : Draws (shuffle l : Run σ (List α)) :=
  Samples.ite (fun _ => Samples.foldlM (fun _ _ => (getRandomUInt_samples _).bind fun _ => Samples.pure _) l)
    fun _ => Samples.pure l

theorem iterate_samples (l : List α) : Draws (iterate l : Run σ (List α)) :=
  Samples.still fun k s => ⟨.ok (arrange (k 0) l), fun n => k (n + 1), s, fun _ => rfl⟩

/-- **A draw below a power of two is uniform**, if the draws of the tape have at least 64 bits. -/
theorem getRandomULong_expect {M : ℕ} [NeZero M] (hM : 2 ^ 64 ∣ M) {e : ℕ} (he : e ≤ 64) (k : ℕ → ℕ) (s : σ)
    (φ : Except Exception ℕ → (ℕ → ℕ) → σ → ℝ≥0∞) :
    expect worldTape M (getRandomULong (2 ^ e) : Run σ ℕ) k s φ = average (2 ^ e) fun leaf => φ (.ok leaf) k s := by
  have hdvd : 2 ^ e ∣ M := (Nat.pow_dvd_pow 2 he).trans hM
  obtain ⟨q, rfl⟩ := hdvd
  have hq : 0 < q := Nat.pos_of_ne_zero fun h => NeZero.ne (2 ^ e * q) (by rw [h, Nat.mul_zero])
  have hmod : ∀ x, x % 2 ^ 64 % 2 ^ e = x % 2 ^ e := fun x => Nat.mod_mod_of_dvd x (Nat.pow_dvd_pow 2 he)
  calc expect worldTape (2 ^ e * q) (getRandomULong (2 ^ e) : Run σ ℕ) k s φ
      = expect worldTape (2 ^ e * q) (randBytes : Run σ ℕ) k s (carryOn
          (fun material k' s' => φ (.ok (material % 2 ^ 64 % 2 ^ e)) k' s') fun e k' s' => φ (.error e) k' s') := by
        rw [getRandomULong, expect_bind randBytes_samples]
        congr 1
        funext r k' s'
        cases r with
        | error e => rfl
        | ok material => exact expect_still fun _ => rfl
    _ = average (2 ^ e * q) fun x => φ (.ok (x % 2 ^ e)) k s := by
        rw [randBytes, expect_draw fun _ _ => rfl]
        simp only [carryOn, hmod]
    _ = average (2 ^ e) fun leaf => φ (.ok leaf) k s := average_mod hq fun leaf => φ (.ok leaf) k s

end Random

/-! ## Providers -/

/-- the methods of a provider take their draws from the tape -/
structure SamplingBackend {β : Type} (B : Backend β) : Prop where
  getInternal : ∀ location, Draws (B.getInternal location)
  setInternal : ∀ location raw, Draws (B.setInternal location raw)
  getInternalBatch : ∀ get, B.getInternalBatch = some get → ∀ locations response, Draws (get locations response)
  setInternalBatch : ∀ set, B.setInternalBatch = some set → ∀ requests, Draws (set requests)

theorem inMemoryBackend_samples (capacity blockSize : ℕ) : SamplingBackend (inMemoryBackend capacity blockSize) where
  getInternal _ := Samples.read.bind fun _ => Samples.pure _
  setInternal location raw := Samples.modify fun blocks => BlockArray.write blocks location raw
  getInternalBatch _ h := by simp [inMemoryBackend] at h
  setInternalBatch _ h := by simp [inMemoryBackend] at h

theorem fileBackend_samples (capacity blockSize : ℕ) : SamplingBackend (fileBackend capacity blockSize) where
  getInternal _ := Samples.read.bind fun _ => Samples.pure _
  setInternal location raw := Samples.modify fun file => StorageFile.write file location raw
  getInternalBatch _ h := by simp [fileBackend] at h
  setInternalBatch _ h := by simp [fileBackend] at h

/-! ## The storage adapter -/

namespace StorageAdapter

variable {β : Type} {S : StorageAdapter β} (B : SamplingBackend S.backend)

theorem checkCapacity_samples (location : ℕ) : Draws (S.checkCapacity location) :=
  Samples.ite (fun _ => Samples.throw _) fun _ => Samples.pure _

theorem checkBlockSize_samples (n : ℕ) : Draws (S.checkBlockSize n) :=
  Samples.ite (fun _ => Samples.throw _) fun _ => Samples.pure _

include B

theorem getAndRecord_samples (location : ℕ) : Draws (S.getAndRecord location) :=
  (Samples.zoom _ (B.getInternal location)).bind fun _ => (Samples.modify _).bind fun _ => Samples.pure _

theorem setAndRecord_samples (location : ℕ) (raw : Bytes) : Draws (S.setAndRecord location raw) :=
  (Samples.zoom _ (B.setInternal location raw)).bind fun _ => Samples.modify _

theorem getInternalLoop_samples (locations : List ℕ) (fuel i : ℕ) (response : List Bytes) :
    Draws (S.getInternalLoop locations fuel i response) := by
  induction fuel generalizing i response with
  | zero => exact Samples.throw _
  | succ fuel ih =>
    exact Samples.ite (fun _ => (getAndRecord_samples B _).bind fun _ => ih _ _) fun _ => Samples.pure _

theorem getInternalBatch_samples (locations : List ℕ) (response : List Bytes) :
    Draws (S.getInternalBatch locations response) := by
  unfold StorageAdapter.getInternalBatch
  cases h : S.backend.getInternalBatch with
  | none => exact getInternalLoop_samples B _ _ _ _
  | some get => exact Samples.zoom _ (B.getInternalBatch get h locations response)

theorem setInternalBatch_samples (requests : List (ℕ × Bytes)) : Draws (S.setInternalBatch requests) := by
  unfold StorageAdapter.setInternalBatch
  cases h : S.backend.setInternalBatch with
  | none => exact Samples.forM fun _ => setAndRecord_samples B _ _
  | some set => exact Samples.zoom _ (B.setInternalBatch set h requests)

theorem getAndRecordBatch_samples (locations : List ℕ) (response : List Bytes) :
    Draws (S.getAndRecordBatch locations response) :=
  (getInternalBatch_samples B _ _).bind fun _ => (Samples.modify _).bind fun _ => Samples.pure _

theorem setAndRecordBatch_samples (requests : List (ℕ × Bytes)) : Draws (S.setAndRecordBatch requests) :=
  (setInternalBatch_samples B _).bind fun _ => Samples.modify _

theorem getSlices_samples (locations : List ℕ) (pointer : ℕ) (response : List Bytes) :
    Draws (S.getSlices locations pointer response) := by
  induction pointer, response using StorageAdapter.getSlices.induct S locations with
  | case1 pointer response h ih =>
    rw [StorageAdapter.getSlices, if_pos h]
    exact (getAndRecordBatch_samples B _ _).bind ih
  | case2 pointer response h =>
    rw [StorageAdapter.getSlices, if_neg h]
    exact Samples.pure _

theorem setSlices_samples (writes : List (ℕ × Bytes)) (pointer : ℕ) : Draws (S.setSlices writes pointer) := by
  induction pointer using StorageAdapter.setSlices.induct S writes with
  | case1 pointer h ih =>
    rw [StorageAdapter.setSlices, if_pos h]
    exact (setAndRecordBatch_samples B _).bind fun _ => ih
  | case2 pointer h =>
    rw [StorageAdapter.setSlices, if_neg h]
    exact Samples.pure _

theorem download_samples (locations : List ℕ) : Draws (S.download locations) := by
  unfold StorageAdapter.download
  split
  · exact (getAndRecord_samples B _).bind fun _ => Samples.pure _
  · exact Samples.ite (fun _ => getAndRecordBatch_samples B _ _) fun _ => getSlices_samples B _ _ _

theorem upload_samples (writes : List (ℕ × Bytes)) : Draws (S.upload writes) := by
  unfold StorageAdapter.upload
  split
  · exact setAndRecord_samples B _ _
  · exact Samples.ite (fun _ => setAndRecordBatch_samples B _) fun _ => setSlices_samples B _ _

theorem get_samples (locations : List ℕ) : Draws (S.get locations) :=
  (Samples.forM fun _ => checkCapacity_samples _).bind fun _ => (Samples.modify _).bind fun _ =>
    (download_samples B locations).bind fun _ => (Samples.ofExcept _).bind fun _ => Samples.pure _

omit B in
theorem encodeRequest_samples (request : ℕ × Bucket) : Draws (S.encodeRequest request) := by
  refine (checkCapacity_samples request.1).bind fun _ => Samples.ite (fun _ => Samples.throw _) fun _ => ?_
  have hblock : ∀ block, Draws (S.encodeBlock block) := fun _ => (checkBlockSize_samples _).bind fun _ => Samples.pure _
  exact (Samples.mapM hblock).bind fun _ => (getRandomBlock_samples _).bind fun _ =>
    (Samples.ofExcept _).bind fun _ => Samples.pure _

theorem set_samples (requests : List (ℕ × Bucket)) : Draws (S.set requests) :=
  (Samples.mapM encodeRequest_samples).bind fun _ => (Samples.modify _).bind fun _ => upload_samples B _

end StorageAdapter

/-! ## The stash -/

namespace InMemoryStashAdapter

variable (A : InMemoryStashAdapter)

theorem getAll_samples : Draws getAll :=
  Samples.read.bind fun _ => (iterate_samples _).bind fun _ => shuffle_samples _

theorem checkOverflow_samples (block : ℕ) : Draws (A.checkOverflow block) :=
  Samples.read.bind fun _ => Samples.ite (fun _ => Samples.throw _) fun _ => Samples.pure _

theorem add_samples (block : ℕ) (data : Bytes) : Draws (A.add block data) :=
  (A.checkOverflow_samples block).bind fun _ => Samples.modify _

theorem update_samples (block : ℕ) (data : Bytes) : Draws (A.update block data) :=
  (A.checkOverflow_samples block).bind fun _ => Samples.modify _

theorem get_samples (block : ℕ) (response : Bytes) : Draws (get block response) := by
  apply Samples.read.bind
  intro stash
  cases stash.lookup block with
  | some data => exact Samples.pure _
  | none => exact Samples.pure _

end InMemoryStashAdapter

/-! ## The ORAM -/

/-- the methods of a position map take their draws from the tape -/
structure SamplingMap {μ : Type} (M : PositionMapAdapter μ) : Prop where
  get : ∀ block, Draws (M.get block)
  set : ∀ block leaf, Draws (M.set block leaf)

theorem inMemoryPositionMap_samples (capacity : ℕ) : SamplingMap (inMemoryPositionMap capacity) where
  get _ := (Samples.ite (fun _ => Samples.throw _) fun _ => Samples.pure _).bind fun _ =>
    Samples.read.bind fun _ => Samples.pure _
  set _ _ := (Samples.ite (fun _ => Samples.throw _) fun _ => Samples.pure _).bind fun _ => Samples.modify _

/-- an ORAM whose adapters take their draws from the tape -/
structure SamplingOram {β μ : Type} (O : Oram β μ) : Prop where
  backend : SamplingBackend O.storage.backend
  map : SamplingMap O.map

namespace SamplingOram

variable {β μ : Type} {O : Oram β μ} (D : SamplingOram O)

include D

theorem getCache_samples (locations : List ℕ) (dryRun : Bool) : Draws (O.getCache locations dryRun) :=
  Samples.read.bind fun _ => (iterate_samples _).bind fun _ =>
    Samples.ite (fun _ => (Samples.zoom _ (StorageAdapter.get_samples D.backend _)).bind fun _ =>
      (Samples.modify _).bind fun _ => Samples.pure _) fun _ => Samples.pure _

theorem syncCache_samples : Draws O.syncCache :=
  Samples.read.bind fun _ => (iterate_samples _).bind fun _ => (Samples.modify _).bind fun _ =>
    (Samples.zoom _ (StorageAdapter.set_samples D.backend _)).bind fun _ => Samples.modify _

omit D in
theorem addBlocks_samples (blocks : List Block) : Draws (O.addBlocks blocks) :=
  Samples.forM fun _ => Samples.ite (fun _ => Samples.zoom _ (O.stash.add_samples _ _)) fun _ => Samples.pure _

theorem readPath_samples (leaf : ℕ) (path : List ℕ) (putInStash : Bool) : Draws (O.readPath leaf path putInStash) :=
  Samples.ite (fun _ => (getCache_samples D _ _).bind fun _ => (addBlocks_samples _).bind fun _ => Samples.pure _)
    fun _ => Samples.pure _

theorem scanStash_samples (leaf level : ℕ) (l : List Block) (i : ℕ) (acc : Oram.Scan) :
    Draws (O.scanStash leaf level l i acc) := by
  induction l generalizing i acc with
  | nil => exact Samples.pure _
  | cons entry rest ih =>
    refine (Samples.zoom _ (D.map.get entry.1)).bind fun _ => Samples.ite (fun _ => ?_) fun _ => ih _ _
    exact Samples.ite (fun _ => Samples.pure _) fun _ => ih _ _

omit D in
theorem fillBucket_samples (n : ℕ) (toInsert : List Block) : Draws (O.fillBucket n toInsert) := by
  induction n generalizing toInsert with
  | zero => exact Samples.pure _
  | succ n ih =>
    unfold Oram.fillBucket
    cases toInsert.getLast? with
    | some b => exact (ih _).bind fun _ => Samples.pure _
    | none => exact (getRandomBlock_samples _).bind fun _ => (ih _).bind fun _ => Samples.pure _

theorem writeLevels_samples (leaf n : ℕ) (e : Oram.Eviction) : Draws (O.writeLevels leaf n e) := by
  induction n generalizing e with
  | zero => exact Samples.pure _
  | succ level ih =>
    have hlevel : Draws (O.writeLevel leaf level e) :=
      (scanStash_samples D _ _ _ _ _).bind fun _ => (fillBucket_samples _ _).bind fun _ => Samples.pure _
    exact hlevel.bind ih

theorem writePath_samples (leaf : ℕ) : Draws (O.writePath leaf) :=
  (Samples.zoom _ InMemoryStashAdapter.getAll_samples).bind fun _ => (writeLevels_samples D _ _ _).bind fun _ =>
    (Samples.modify _).bind fun _ => Samples.forM fun _ => Samples.zoom _ (Samples.modify _)

theorem remap_samples (block : ℕ) : Draws (O.remap block) :=
  (Samples.zoom _ (D.map.get block)).bind fun _ => (getRandomULong_samples _).bind fun _ =>
    (Samples.zoom _ (D.map.set block _)).bind fun _ => Samples.pure _

theorem finishAccess_samples (read : Bool) (block : ℕ) (data response : Bytes) (previousPosition : ℕ) :
    Draws (O.finishAccess read block data response previousPosition) := by
  have hrest : Draws (do
      let response ← Oram.onStash (InMemoryStashAdapter.get block response)
      O.writePath previousPosition
      return response) :=
    (Samples.zoom _ (InMemoryStashAdapter.get_samples _ _)).bind fun _ => (writePath_samples D _).bind fun _ => Samples.pure _
  exact Samples.ite (fun _ => (Samples.zoom _ (O.stash.update_samples _ _)).bind fun _ => hrest) fun _ => hrest

theorem access_samples (read : Bool) (block : ℕ) (data response : Bytes) :
    Draws (O.access read block data response) := by
  rw [access_eq]
  exact (remap_samples D block).bind fun _ => (readPath_samples D _ _ _).bind fun _ => finishAccess_samples D _ _ _ _ _

theorem prepare_samples (requests : List Block) : Draws (O.prepare requests) :=
  (Samples.foldlM (fun _ _ => (Samples.zoom _ (D.map.get _)).bind fun _ => readPath_samples D _ _ _) []).bind fun _ =>
    getCache_samples D _ _

theorem batchLoop_samples (requests : List Block) (fuel i : ℕ) (response : List Bytes) :
    Draws (O.batchLoop requests fuel i response) := by
  induction fuel generalizing i response with
  | zero => exact Samples.throw _
  | succ fuel ih =>
    exact Samples.ite (fun _ => (access_samples D _ _ _ _).bind fun _ => ih _ _) fun _ => Samples.pure _

theorem accesses_samples (call : Call) : Draws (O.accesses call) := by
  cases call with
  | get block => exact (access_samples D _ _ _ _).bind fun _ => Samples.pure _
  | put block data => exact (access_samples D _ _ _ _).bind fun _ => Samples.pure _
  | multiple requests =>
    exact Samples.ite (fun _ => Samples.throw _) fun _ => (prepare_samples D _).bind fun _ =>
      batchLoop_samples D _ _ _ _

/-- **A call takes its draws from the tape.** -/
theorem exec_samples (call : Call) : Draws (O.exec call) := by
  rw [exec_eq]
  exact (accesses_samples D call).bind fun _ => (syncCache_samples D).bind fun _ => Samples.pure _

theorem run_samples (calls : List Call) : Draws (O.run calls) := Samples.mapM (exec_samples D)

theorem construct_samples : Draws O.construct :=
  (Samples.zoom _ (StorageAdapter.set_samples D.backend _)).bind fun _ => Samples.forM fun _ =>
    (getRandomULong_samples _).bind fun _ => Samples.zoom _ (D.map.set _ _)

end SamplingOram

/-- an ORAM over a provider that draws from the tape, with an array of leaves -/
theorem arrayOram_samples {β : Type} {S : StorageAdapter β} (B : SamplingBackend S.backend)
    (mapCapacity stashCapacity height batchSize : ℕ) :
    SamplingOram (arrayOram S mapCapacity stashCapacity height batchSize) :=
  ⟨B, inMemoryPositionMap_samples mapCapacity⟩

end PathOram
