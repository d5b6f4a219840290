/-
ORAMs as the tests and the default constructor build them: with the Z and the block size of their storage, and with the
position map and the stash in memory (`arrayOram`). The storage is any provider, or the in-memory one (`inMemoryOram`).
-/
import PathOram.Runs

namespace PathOram

open Lib

/-- an ORAM over a storage, with an in-memory map and stash -/
def arrayOram {β : Type} (S : StorageAdapter β) (mapCapacity stashCapacity height batchSize : ℕ) :
    Oram β (PositionArray mapCapacity) where
  storage := S
  map := inMemoryPositionMap mapCapacity
  stash := ⟨stashCapacity⟩
  dataSize := S.userBlockSize
  Z := S.Z
  height := height
  batchSize := batchSize

/-- an ORAM over in-memory adapters -/
def inMemoryOram (A : AbsStorageAdapter) (crypto : Crypto) (mapCapacity stashCapacity height batchSize : ℕ) :
    Oram (BlockArray A.capacity A.blockSize) (PositionArray mapCapacity) :=
  arrayOram { A with crypto := crypto, backend := inMemoryBackend A.capacity A.blockSize } mapCapacity stashCapacity height
    batchSize

/-- the sizes at which the shifts of the code are exact, adapters that are large enough, and a lawful cipher -/
structure Sizes (A : AbsStorageAdapter) (crypto : Crypto) (mapCapacity height : ℕ) : Prop where
  height_pos : 1 ≤ height
  height_le : height ≤ 31
  blocks_lt : 2 ^ height * A.Z < 2 ^ 64
  capacity_ge : 2 ^ height ≤ A.capacity
  mapCapacity_ge : 2 ^ height * A.Z ≤ mapCapacity
  crypto : crypto.Lawful

/-- the objects before the constructor of the ORAM runs: an empty stash and an empty cache, and arrays with anything -/
structure Fresh {β μ : Type} (s : OramState β μ) : Prop where
  stash : s.stash = ∅
  cache : s.cache = ∅

/-- **An ORAM over a lawful storage and an array is lawful.** -/
def arrayOram_lawful {β : Type} {S : StorageAdapter β} {mapCapacity height : ℕ}
    (h : Sizes S.toAbsStorageAdapter S.crypto mapCapacity height) (L : LawfulBackend S.backend S.capacity S.blockSize)
    (stashCapacity batchSize : ℕ) : LawfulOram (arrayOram S mapCapacity stashCapacity height batchSize) where
  height_pos := h.height_pos
  height_le := h.height_le
  blocks_lt := h.blocks_lt
  Z_eq := rfl
  dataSize_eq := rfl
  capacity_ge := h.capacity_ge
  crypto := h.crypto
  storage := L
  map := inMemoryPositionMap_lawful h.mapCapacity_ge

/-- the entry of a position that a view knows -/
theorem arrayOram_position {β : Type} {S : StorageAdapter β} {mapCapacity height : ℕ}
    (h : Sizes S.toAbsStorageAdapter S.crypto mapCapacity height) (L : LawfulBackend S.backend S.capacity S.blockSize)
    (stashCapacity batchSize : ℕ) {s : OramState β (PositionArray mapCapacity)} {v : View}
    (hs : (arrayOram_lawful h L stashCapacity batchSize).Sees v s) {i : ℕ} (hi : i < 2 ^ height * S.Z) :
    s.map[i]? = some (v.pos i) := by
  obtain ⟨p, hp, hpos⟩ := hs.map
  exact hp i _ hi (hpos i hi)

theorem arrayOram_fresh {β : Type} {S : StorageAdapter β} {mapCapacity height : ℕ}
    (h : Sizes S.toAbsStorageAdapter S.crypto mapCapacity height) (L : LawfulBackend S.backend S.capacity S.blockSize)
    (stashCapacity batchSize : ℕ) {s : OramState β (PositionArray mapCapacity)} (hs : Fresh s) :
    (arrayOram_lawful h L stashCapacity batchSize).Fresh s :=
  ⟨hs.stash, hs.cache, [], fun i leaf _ hi => by cases hi⟩

section

variable {A : AbsStorageAdapter} {crypto : Crypto} {mapCapacity height : ℕ}

/-- **An ORAM over in-memory adapters is lawful.** -/
def inMemoryOram_lawful (h : Sizes A crypto mapCapacity height) (stashCapacity batchSize : ℕ) :
    LawfulOram (inMemoryOram A crypto mapCapacity stashCapacity height batchSize) :=
  arrayOram_lawful (S := { A with crypto := crypto, backend := inMemoryBackend A.capacity A.blockSize }) h
    (inMemoryBackend_lawful A.capacity A.blockSize) stashCapacity batchSize

theorem inMemoryOram_fresh (h : Sizes A crypto mapCapacity height) (stashCapacity batchSize : ℕ)
    {s : OramState (BlockArray A.capacity A.blockSize) (PositionArray mapCapacity)} (hs : Fresh s) :
    (inMemoryOram_lawful h stashCapacity batchSize).Fresh s := arrayOram_fresh h _ stashCapacity batchSize hs

theorem inMemoryOram_position (h : Sizes A crypto mapCapacity height) (stashCapacity batchSize : ℕ)
    {s : OramState (BlockArray A.capacity A.blockSize) (PositionArray mapCapacity)} {v : View}
    (hs : (inMemoryOram_lawful h stashCapacity batchSize).Sees v s) {i : ℕ} (hi : i < 2 ^ height * A.Z) :
    s.map[i]? = some (v.pos i) := arrayOram_position h _ stashCapacity batchSize hs hi

/-- an ORAM over in-memory adapters throws nothing but the overflow of its stash, and not with room for all blocks -/
theorem inMemoryOram_throws (h : Sizes A crypto mapCapacity height) (stashCapacity batchSize : ℕ) {e : Exception}
    (he : (inMemoryOram_lawful h stashCapacity batchSize).Throws e) :
    LawfulOram.IsOverflow e ∧ stashCapacity < 2 ^ height * A.Z := by
  rcases he with he | he | he
  exacts [he.elim, he.elim, he]

end

/-! ## Small ORAMs

Buckets of one or two blocks of 32 bytes, and no encryption: the inputs of the results are satisfiable, and runs on them
are evaluated. -/

theorem zeroKey_length : (List.replicate 32 (0 : UInt8)).length = keySize := rfl

theorem two_blocks_32 : 2 * aesBlockSize ≤ 32 := by decide

theorem whole_blocks_32 : 32 % aesBlockSize = 0 := by decide

theorem two_slots : (2 : ℕ) ≠ 0 := by decide

/-- two buckets of one block of 32 bytes, of which a tree of height 1 uses one -/
def tinyStorage : AbsStorageAdapter :=
  ⟨List.replicate 32 0, 1, 0, 2, 32, zeroKey_length, two_blocks_32, whole_blocks_32, Nat.one_ne_zero⟩

/-- the cipher mode that copies its input -/
def plainCrypto : Crypto := ⟨.none, id, id, fun _ b => b, fun _ b => b⟩

theorem plainCrypto_lawful : plainCrypto.Lawful := ⟨fun _ _ _ h => h, fun _ _ _ _ => rfl⟩

theorem tiny_sizes : Sizes tinyStorage plainCrypto 2 1 :=
  ⟨by decide, by decide, by decide, by decide, by decide, plainCrypto_lawful⟩

/-- eight buckets of two blocks, of which a tree of height 3 uses seven -/
def bushyStorage : AbsStorageAdapter :=
  ⟨List.replicate 32 0, 2, 0, 8, 32, zeroKey_length, two_blocks_32, whole_blocks_32, two_slots⟩

theorem bushy_sizes : Sizes bushyStorage plainCrypto 16 3 :=
  ⟨by decide, by decide, by decide, by decide, by decide, plainCrypto_lawful⟩

/-- arrays of zeroes -/
def zeroState (A : AbsStorageAdapter) (mapCapacity : ℕ) :
    OramState (BlockArray A.capacity A.blockSize) (PositionArray mapCapacity) :=
  ⟨⟨Vector.replicate _ ⟨List.replicate _ 0, List.length_replicate⟩, false, [], []⟩, Vector.replicate _ 0, ∅, ∅⟩

theorem zeroState_fresh (A : AbsStorageAdapter) (mapCapacity : ℕ) : Fresh (zeroState A mapCapacity) := ⟨rfl, rfl⟩

/-- a world in which every draw is zero and hash tables keep their order -/
def zeroWorld : World := ⟨fun _ => 0, fun _ => 0⟩

/-- a world in which the draws count up -/
def countingWorld : World := ⟨fun n => n, fun _ => 0⟩

end PathOram
