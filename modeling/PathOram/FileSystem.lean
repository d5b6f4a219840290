/-
The file-system provider (`FileSystemStorageAdapter` in `storage-adapter.cpp`).

One file has a slot of `blockSize` bytes for each location. The constructor with `override` writes all slots, and the
adapter checks every location, so the file keeps its length; a file is taken to return the bytes last written to it.

- `fileBackend_lawful`: the provider is lawful and never throws.
- `construct_explicit`: with an explicit key the constructor makes the same adapter again.
-/
import PathOram.InMemory

namespace PathOram

open Lib

/-! ## The file -/

/-- the contents of the file -/
abbrev StorageFile (capacity blockSize : ℕ) := Buffer (capacity * blockSize)

namespace StorageFile

variable {capacity blockSize : ℕ} (file : StorageFile capacity blockSize)

def read (location : ℕ) : Bytes := slice file.1 (location * blockSize) blockSize

def write (location : ℕ) (raw : Bytes) : StorageFile capacity blockSize :=
  ⟨patch file.1 (location * blockSize) raw, by rw [length_patch, file.2]⟩

theorem read_write {location : ℕ} {raw : Bytes} (hl : location < capacity) (hr : raw.length = blockSize) :
    (file.write location raw).read = Function.update file.read location raw := by
  have hend : ∀ {i j : ℕ}, i < j → i * blockSize + blockSize ≤ j * blockSize := fun {i j} h =>
    (Nat.succ_mul i blockSize).symm.trans_le (Nat.mul_le_mul_right _ h)
  have hfits : location * blockSize + raw.length ≤ file.1.length := by
    rw [hr, file.2]
    exact hend hl
  funext ℓ
  rw [Function.update_apply]
  split_ifs with h
  · subst h
    have hback : slice (patch file.1 (ℓ * blockSize) raw) (ℓ * blockSize) raw.length = raw := slice_patch hfits
    rw [hr] at hback
    exact hback
  · refine slice_patch_of_disjoint hfits ?_
    rw [hr]
    exact (Nat.lt_or_gt_of_ne h).imp hend hend

end StorageFile

/-- `FileSystemStorageAdapter` -/
def fileBackend (capacity blockSize : ℕ) : Backend (StorageFile capacity blockSize) where
  getInternal location := do return (← Prog.read).read location
  setInternal location raw := Prog.modify fun file => file.write location raw
  getInternalBatch := none
  setInternalBatch := none
  supportsBatchGet := false
  supportsBatchSet := false

/-- **The file-system provider is lawful** and never throws. -/
def fileBackend_lawful (capacity blockSize : ℕ) : LawfulBackend (fileBackend capacity blockSize) capacity blockSize where
  raw := StorageFile.read
  fault _ := False
  getInternal f location _ := by
    refine Triple.bind (Q := fun file file' => StorageFile.read file = f ∧ StorageFile.read file' = f) ?_ fun file => ?_
    · exact Triple.read fun file h => ⟨h, h⟩
    · exact Triple.pure fun file' h => ⟨by rw [h.1], h.2⟩
  setInternal f location buffer hl hb := by
    change Triple _ (Prog.modify fun file => StorageFile.write file location buffer) _ _
    exact Triple.modify fun file h => by rw [StorageFile.read_write file hl hb, h]
  getInternalBatch _ h := by simp [fileBackend] at h
  setInternalBatch _ h := by simp [fileBackend] at h

/-! ## ORAMs over a file -/

/-- the adapter of a file -/
def fileStorage (A : AbsStorageAdapter) (crypto : Crypto) : StorageAdapter (StorageFile A.capacity A.blockSize) :=
  { A with crypto := crypto, backend := fileBackend A.capacity A.blockSize }

/-- an ORAM over a file, with an in-memory map and stash -/
def fileOram (A : AbsStorageAdapter) (crypto : Crypto) (mapCapacity stashCapacity height batchSize : ℕ) :
    Oram (StorageFile A.capacity A.blockSize) (PositionArray mapCapacity) :=
  arrayOram (fileStorage A crypto) mapCapacity stashCapacity height batchSize

/-- an empty file, with an array of zeroes -/
def emptyFile (A : AbsStorageAdapter) (mapCapacity : ℕ) :
    OramState (StorageFile A.capacity A.blockSize) (PositionArray mapCapacity) :=
  ⟨⟨⟨List.replicate _ 0, List.length_replicate⟩, false, [], []⟩, Vector.replicate _ 0, ∅, ∅⟩

theorem emptyFile_fresh (A : AbsStorageAdapter) (mapCapacity : ℕ) : Fresh (emptyFile A mapCapacity) := ⟨rfl, rfl⟩

theorem emptyFile_map (A : AbsStorageAdapter) (mapCapacity : ℕ) : ∀ leaf ∈ (emptyFile A mapCapacity).map, leaf < 2 ^ 64 := by
  intro leaf hleaf
  obtain ⟨i, hi, rfl⟩ := Vector.getElem_of_mem hleaf
  change (Vector.replicate mapCapacity 0)[i] < 2 ^ 64
  rw [Vector.getElem_replicate]
  norm_num

/-- the constructor of the storage adapter with an explicit key draws none -/
theorem construct_explicit {σ : Type} (A : AbsStorageAdapter) (w : World) (s : σ) :
    (AbsStorageAdapter.construct A.capacity A.userBlockSize A.key A.Z A.batchLimit).exec w s = (.ok A, w, s) := by
  unfold AbsStorageAdapter.construct
  dsimp only
  rw [dif_pos A.key_length, Prog.exec_bind_ok (Prog.exec_pure _ w s), dif_neg (not_lt.2 A.two_blocks),
    dif_neg (not_not.2 A.whole_blocks), dif_neg A.Z_ne_zero]
  rfl

end PathOram
