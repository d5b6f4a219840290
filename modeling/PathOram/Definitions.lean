/-
Types and constants of path-oram (`definitions.h`), and the programs the model is written in.

- A `number` of the source, an unsigned 64-bit integer, is a natural number here, and the places where its width matters
  say so: `sub64` wraps, `shlOne` is the `int` literal 1 shifted and then converted, `toInt` and `ofInt` are the
  conversions to and from a 32-bit `int`.
- `Exception` has one constructor for each text the sources throw; `Exception.what` is the text.
- `World` is what the code does not compute: the bytes of the random generator and the order in which a hash table is
  iterated. Both are streams, and nothing in the model depends on more than their next elements.
- `Run σ α` is a method of an object with state σ.
-/
import PathOram.Lib.Prog
import PathOram.Lib.UnorderedMap
import PathOram.Lib.Bytes
import PathOram.Lib.Shuffle

namespace PathOram

open Lib

abbrev Bytes := List UInt8

/-- a block: its ID and its payload -/
abbrev Block := ℕ × Bytes

abbrev Bucket := List Block

/-- the ID of an empty block -/
def ulongMax : ℕ := 2 ^ 64 - 1

def keySize : ℕ := 32

def aesBlockSize : ℕ := 16

/-! ## Machine arithmetic -/

/-- subtraction of unsigned 64-bit integers -/
def sub64 (a b : ℕ) : ℕ := (a + (2 ^ 64 - b)) % 2 ^ 64

/-- the `int` expression 1 << n, converted to an unsigned 64-bit integer. From n = 31 on the literal overflows; the
model takes what g++ emits for x86-64, where the count is cut to five bits and the sign bit is extended. -/
def shlOne (n : ℕ) : ℕ := if n % 32 = 31 then 2 ^ 64 - 2 ^ 31 else 2 ^ (n % 32)

/-- conversion of an unsigned 64-bit integer to `int` -/
def toInt (n : ℕ) : ℤ := (n : ℤ).bmod (2 ^ 32)

/-- conversion of an `int` to an unsigned 64-bit integer -/
def ofInt (z : ℤ) : ℕ := (z % 2 ^ 64).toNat

theorem sub64_of_le {a b : ℕ} (h : b ≤ a) (ha : a < 2 ^ 64) : sub64 a b = a - b := by
  unfold sub64; omega

theorem shlOne_of_le {n : ℕ} (h : n ≤ 30) : shlOne n = 2 ^ n := by
  have hn : n % 32 = n := Nat.mod_eq_of_lt (by omega)
  rw [shlOne, hn, if_neg (by omega)]

theorem shlOne_lt {n : ℕ} : shlOne n < 2 ^ 64 := by
  have hpow : 2 ^ (n % 32) ≤ 2 ^ 31 := Nat.pow_le_pow_right (by norm_num) (by omega)
  unfold shlOne
  split_ifs <;> omega

theorem shlOne_pos {n : ℕ} : 0 < shlOne n := by
  unfold shlOne
  split_ifs
  · norm_num
  · exact Nat.two_pow_pos _

/-- a number survives the way through an `int` if it is in one of the two halves of the range of an `int` -/
theorem ofInt_toInt_iff {n : ℕ} (h : n < 2 ^ 64) : ofInt (toInt n) = n ↔ n < 2 ^ 31 ∨ 2 ^ 64 - 2 ^ 31 ≤ n := by
  unfold ofInt toInt
  rw [Int.bmod_def]
  norm_num
  split_ifs <;> omega

theorem ofInt_toInt {n : ℕ} (h : n < 2 ^ 31) : ofInt (toInt n) = n :=
  (ofInt_toInt_iff (h.trans (by norm_num))).2 (Or.inl h)

theorem toInt_of_lt {n : ℕ} (h : n < 2 ^ 31) : toInt n = n := by
  unfold toInt
  rw [Int.bmod_def]
  norm_num
  split_ifs <;> omega

/-- a number that is too large for an `int` loses a multiple of 2^32 -/
theorem toInt_le {n : ℕ} (h : 2 ^ 31 ≤ n) : toInt n + 2 ^ 32 ≤ n := by
  unfold toInt
  rw [Int.bmod_def]
  norm_num
  split_ifs <;> omega

/-- what comes out of an `int` is in one of the two halves -/
theorem ofInt_toInt_range (n : ℕ) : ofInt (toInt n) < 2 ^ 31 ∨ 2 ^ 64 - 2 ^ 31 ≤ ofInt (toInt n) := by
  unfold ofInt toInt
  rw [Int.bmod_def]
  norm_num
  split_ifs <;> omega

/-! ## Exceptions -/

/-- what the code throws -/
inductive Exception where
  /-- `ORAM::multiple` -/
  | tooManyRequests (size batchSize : ℕ)
  /-- `ORAM::load` -/
  | tooMuchData
  /-- `AbsStorageAdapter::checkCapacity` -/
  | idOutOfBound (location capacity : ℕ)
  /-- `AbsStorageAdapter::set` -/
  | notZBlocks (Z given : ℕ)
  /-- `AbsStorageAdapter::checkBlockSize` -/
  | dataTooLong (dataLength userBlockSize : ℕ)
  /-- the constructor of `AbsStorageAdapter` -/
  | blockTooSmall (userBlockSize : ℕ)
  | blockNotMultiple (userBlockSize : ℕ)
  | zeroZ (Z : ℕ)
  /-- `encrypt` -/
  | keyLength (size : ℕ)
  | inputLength (size : ℕ)
  | ivLength (size : ℕ)
  /-- `InMemoryPositionMapAdapter::checkCapacity` -/
  | blockOutOfBound (block capacity : ℕ)
  /-- `InMemoryStashAdapter::checkOverflow` -/
  | overCapacity (capacity : ℕ)
  /-- thrown by `std::vector::resize` -/
  | lengthError
  /-- thrown by a storage provider -/
  | backend (message : String)
  /-- a loop that does not end within its fuel -/
  | diverges
  /-- not an exception of the code: bytes past the end of a buffer are read -/
  | readPastEnd
  /-- nor this: bytes past the end of a buffer are written -/
  | writePastEnd
deriving DecidableEq, Repr

/-- the text of an exception -/
def Exception.what : Exception → String
  | .tooManyRequests size batchSize => s!"Too many requests ({size}) for batch size {batchSize}"
  | .tooMuchData => "bulk load: too much data for ORAM"
  | .idOutOfBound location capacity => s!"id {location} out of bound (capacity {capacity})"
  | .notZBlocks Z given => s!"each set request must contain exactly Z={Z} blocks ({given} given)"
  | .dataTooLong dataLength userBlockSize =>
    s!"data of size {dataLength} is too long for a block of {userBlockSize} bytes"
  | .blockTooSmall userBlockSize =>
    s!"block size {userBlockSize} is too small, need at least {2 * aesBlockSize}"
  | .blockNotMultiple userBlockSize =>
    s!"block size must be a multiple of {aesBlockSize} (provided {userBlockSize} bytes)"
  | .zeroZ Z => s!"Z must be greater than zero (provided {Z})"
  | .keyLength size => s!"key of size {size} bytes provided, need {keySize} bytes"
  | .inputLength size => s!"input must be a multiple of {aesBlockSize} (provided {size} bytes)"
  | .ivLength size => s!"IV of size {size} bytes provided, need {aesBlockSize} bytes"
  | .blockOutOfBound block capacity => s!"block {block} out of bound (capacity {capacity})"
  | .overCapacity capacity => s!"trying to insert over capacity (capacity {capacity})"
  | .lengthError => "vector::_M_default_append"
  | .backend message => message
  | .diverges => ""
  | .readPastEnd => ""
  | .writePastEnd => ""

/-! ## Programs -/

/-- the random generator and the iteration orders of the hash tables, each a stream of choices -/
structure World where
  rand : ℕ → ℕ
  iter : ℕ → ℕ

/-- a method of an object with state σ -/
abbrev Run (σ α : Type) := Prog World Exception σ α

/-- the entries of a hash table in the order in which a loop meets them -/
def iterate {σ α : Type} (l : List α) : Run σ (List α) :=
  Prog.world fun w => (arrange (w.iter 0) l, { w with iter := fun n => w.iter (n + 1) })

theorem iterate_triple {σ α : Type} {P : σ → Prop} {E : Exception → σ → Prop} (l : List α) :
    Triple P (iterate l : Run σ (List α)) (fun l' s => l'.Perm l ∧ P s) E :=
  Triple.world fun w _ hs => ⟨arrange_perm (w.iter 0) l, hs⟩

end PathOram
