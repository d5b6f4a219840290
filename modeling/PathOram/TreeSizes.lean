/-
The tree arithmetic at the sizes of the constructor.

The constructor computes the number of buckets and of blocks with 64-bit shifts and so admits every height below 64.
Leaves are drawn below `1 << (height - 1)`, and a bucket is found by adding it to a leaf; there the literal is an `int`.

- `bucketForLevelLeaf_ne`: from height 32 on the bucket of the first leaf on the last level is wrong.
- `treeExact_iff`: **the arithmetic is that of the tree if and only if the height is at most 31.**
-/
import PathOram.InMemory

namespace PathOram

open Lib

/-- leaves and buckets are those of the tree -/
structure Oram.TreeExact {β μ : Type} (O : Oram β μ) : Prop where
  /-- the literal 1 is shifted to a positive `int`, and a 64-bit number by less than its width -/
  shifts : O.height - 1 < 31 ∧ ∀ level < O.height, O.height - 1 - level < 64
  /-- what the constructor and `access` draw for a block is a leaf -/
  draws : ∀ (σ : Type) (w : World) (s : σ), ∃ leaf w',
    Prog.exec (getRandomULong (shlOne (O.height - 1)) : Run σ ℕ) w s = (.ok leaf, w', s) ∧ leaf ≤ 2 ^ (O.height - 1) - 1
  bucket : ∀ level < O.height, ∀ leaf ≤ 2 ^ (O.height - 1) - 1,
    O.bucketForLevelLeaf level leaf = (leaf + 2 ^ (O.height - 1)) / 2 ^ (O.height - 1 - level) ∧
      2 ^ level ≤ O.bucketForLevelLeaf level leaf ∧ O.bucketForLevelLeaf level leaf ≤ 2 ^ (level + 1) - 1

variable {β μ : Type} {O : Oram β μ}

theorem le_pred_two_pow {n k : ℕ} : n ≤ 2 ^ k - 1 ↔ n < 2 ^ k := by
  have := Nat.two_pow_pos k
  omega

/-- with shifts below 31 the arithmetic is exact -/
theorem treeExact_of_le (hpos : 1 ≤ O.height) (hh : O.height ≤ 31) : O.TreeExact where
  shifts := ⟨by omega, fun level _ => by omega⟩
  draws σ w s := by
    refine ⟨w.rand 0 % 2 ^ 64 % shlOne (O.height - 1), _, rfl, ?_⟩
    rw [shlOne_of_le (by omega), le_pred_two_pow]
    exact Nat.mod_lt _ (Nat.two_pow_pos _)
  bucket level hlevel leaf hleaf := by
    rw [le_pred_two_pow] at hleaf
    rw [O.bucketForLevelLeaf_eq_node hh hlevel hleaf]
    refine ⟨rfl, node_ge hlevel, ?_⟩
    rw [le_pred_two_pow]
    exact node_lt hlevel hleaf

/-- a literal that is shifted by 31 and more is not the power of two -/
theorem shlOne_ne {n : ℕ} (hn : 31 ≤ n) (hlt : n < 63) : shlOne n ≠ 2 ^ n := by
  rcases hn.eq_or_lt with rfl | hgt
  · decide
  · have hmod : n % 32 = n - 32 := by omega
    have hpow : 2 ^ (n - 32) < 2 ^ n := Nat.pow_lt_pow_right (by norm_num) (by omega)
    rw [shlOne, hmod, if_neg (by omega)]
    exact hpow.ne

/-- **From height 32 on the arithmetic is wrong**, on the last level for the first leaf. -/
theorem bucketForLevelLeaf_ne (hh : 32 ≤ O.height) (hlt : O.height < 64) :
    O.bucketForLevelLeaf (O.height - 1) 0 ≠ (0 + 2 ^ (O.height - 1)) / 2 ^ (O.height - 1 - (O.height - 1)) := by
  have hone : sub64 O.height 1 = O.height - 1 := sub64_of_le (by omega) (by omega)
  have hsub : sub64 (sub64 O.height 1) (O.height - 1) = 0 := by
    rw [hone, sub64_of_le le_rfl (by omega), Nat.sub_self]
  have hshl : shlOne (O.height - 1) < 2 ^ 64 := by
    unfold shlOne
    split_ifs with h
    · norm_num
    · exact Nat.pow_lt_pow_right (by norm_num) (by omega)
  rw [Oram.bucketForLevelLeaf, hsub, Nat.zero_add, Nat.zero_add, Nat.mod_eq_of_lt hshl, Nat.sub_self]
  simpa using shlOne_ne (by omega) (by omega)

/-- **The arithmetic is exact if and only if the height is at most 31**, of the heights that the constructor admits. -/
theorem treeExact_iff (hpos : 1 ≤ O.height) (hZ : 1 ≤ O.Z) (hsize : 2 ^ O.height * O.Z < 2 ^ 64) :
    O.TreeExact ↔ O.height ≤ 31 := by
  refine ⟨fun h => ?_, treeExact_of_le hpos⟩
  by_contra hwide
  have hlt : O.height < 64 := by
    have hle : 2 ^ O.height ≤ 2 ^ O.height * O.Z := Nat.le_mul_of_pos_right _ hZ
    exact (Nat.pow_lt_pow_iff_right (by norm_num : 1 < 2)).1 (hle.trans_lt hsize)
  exact bucketForLevelLeaf_ne (by omega) hlt (h.bucket (O.height - 1) (by omega) 0 (Nat.zero_le _)).1

/-- 2^32 buckets of one block -/
def tallStorage : AbsStorageAdapter :=
  ⟨List.replicate 32 0, 1, 0, 2 ^ 32, 32, zeroKey_length, two_blocks_32, whole_blocks_32, Nat.one_ne_zero⟩

/-- the tallest tree that is exact, in half of these buckets -/
theorem treeExact_iff_highest : (inMemoryOram tallStorage plainCrypto (2 ^ 31) 93 31 1).TreeExact :=
  (treeExact_iff (by decide) (by decide) (by decide)).2 (by decide)

/-- **A tree of height 32.** Its 2^32 blocks are far below 2^64. The draw 2^31 is taken for a leaf although there are
2^31 of them, and the bucket of leaf 0 on the last level is not 2^31. -/
theorem treeExact_tall : 2 ^ 32 * tallStorage.Z < 2 ^ 64 ∧
    ¬ (inMemoryOram tallStorage plainCrypto (2 ^ 32) 96 32 1).TreeExact ∧
    ((getRandomULong (shlOne 31) : Run Unit ℕ).exec ⟨fun _ => 2 ^ 31, fun _ => 0⟩ ()).1 = .ok (2 ^ 31) ∧
    (inMemoryOram tallStorage plainCrypto (2 ^ 32) 96 32 1).bucketForLevelLeaf 31 0 = 2 ^ 64 - 2 ^ 31 := by
  refine ⟨by decide, fun h => ?_, by decide, by decide⟩
  exact bucketForLevelLeaf_ne (O := inMemoryOram tallStorage plainCrypto (2 ^ 32) 96 32 1) (by decide) (by decide)
    (h.bucket 31 (by decide) 0 (Nat.zero_le _)).1

end PathOram
