/-
Complete binary trees in heap order. The nodes of a tree of height h are the numbers 1 .. 2^h - 1, the children of n
are 2n and 2n + 1, and the leaves, numbered from 0, are the nodes of level h - 1. `node h level leaf` is the node of
that level on the path from the root to the leaf.
-/
import Mathlib.Tactic

namespace PathOram.Lib

/-- the node of a level on the path to a leaf -/
def node (h level leaf : ℕ) : ℕ := (leaf + 2 ^ (h - 1)) / 2 ^ (h - 1 - level)

variable {h level level' leaf leaf' : ℕ}

theorem two_pow_level (hl : level < h) : 2 ^ level * 2 ^ (h - 1 - level) = 2 ^ (h - 1) := by
  rw [← pow_add]; congr 1; omega

theorem node_ge (hl : level < h) : 2 ^ level ≤ node h level leaf := by
  rw [node, Nat.le_div_iff_mul_le (Nat.two_pow_pos _), two_pow_level hl]
  exact Nat.le_add_left _ _

theorem node_lt (hl : level < h) (hf : leaf < 2 ^ (h - 1)) : node h level leaf < 2 ^ (level + 1) := by
  rw [node, Nat.div_lt_iff_lt_mul (Nat.two_pow_pos _), pow_succ', mul_assoc, two_pow_level hl]
  omega

theorem node_pos (hl : level < h) : 1 ≤ node h level leaf := Nat.one_le_two_pow.trans (node_ge hl)

theorem node_lt_size (hl : level < h) (hf : leaf < 2 ^ (h - 1)) : node h level leaf < 2 ^ h :=
  (node_lt hl hf).trans_le (Nat.pow_le_pow_right (by norm_num) hl)

/-- nodes of different levels differ -/
theorem node_level_inj (hl : level < h) (hl' : level' < h) (hf : leaf < 2 ^ (h - 1)) (hf' : leaf' < 2 ^ (h - 1))
    (he : node h level leaf = node h level' leaf') : level = level' := by
  have h1 : 2 ^ level < 2 ^ (level' + 1) := (node_ge hl).trans_lt (he ▸ node_lt hl' hf')
  have h2 : 2 ^ level' < 2 ^ (level + 1) := (node_ge hl').trans_lt (he ▸ node_lt hl hf)
  have h1' := (Nat.pow_lt_pow_iff_right (by norm_num : 1 < 2)).1 h1
  have h2' := (Nat.pow_lt_pow_iff_right (by norm_num : 1 < 2)).1 h2
  omega

theorem node_log2 (hl : level < h) (hf : leaf < 2 ^ (h - 1)) : (node h level leaf).log2 = level := by
  have hpos : 1 ≤ node h level leaf := node_pos hl
  rw [Nat.log2_eq_iff (by omega)]
  exact ⟨node_ge hl, node_lt hl hf⟩

/-- paths that share a node share the nodes above it -/
theorem node_eq_of_le (hle : level' ≤ level) (hl : level < h) (he : node h level leaf = node h level leaf') :
    node h level' leaf = node h level' leaf' := by
  have hup : ∀ leaf, node h level' leaf = node h level leaf / 2 ^ (level - level') := fun leaf => by
    have hexp : h - 1 - level' = h - 1 - level + (level - level') := by omega
    rw [node, node, Nat.div_div_eq_div_mul, ← pow_add, hexp]
  rw [hup, hup, he]

/-- the root is on every path -/
theorem node_zero (hh : 1 ≤ h) (hf : leaf < 2 ^ (h - 1)) : node h 0 leaf = 1 := by
  have h1 : 2 ^ 0 ≤ node h 0 leaf := node_ge (by omega)
  have h2 := node_lt (show 0 < h by omega) hf
  omega

/-- the path to a leaf, from the root -/
def path (h leaf : ℕ) : List ℕ := (List.range h).map fun level => node h level leaf

theorem mem_path {ℓ : ℕ} : ℓ ∈ path h leaf ↔ ∃ level < h, node h level leaf = ℓ := by
  simp [path]

theorem path_length : (path h leaf).length = h := by simp [path]

theorem path_nodup (hf : leaf < 2 ^ (h - 1)) : (path h leaf).Nodup := by
  apply (List.nodup_map_iff_inj_on List.nodup_range).2
  intro a ha b hb he
  exact node_level_inj (List.mem_range.1 ha) (List.mem_range.1 hb) hf hf he

theorem mem_path_lt {ℓ : ℕ} (hf : leaf < 2 ^ (h - 1)) (hm : ℓ ∈ path h leaf) : 1 ≤ ℓ ∧ ℓ < 2 ^ h := by
  obtain ⟨level, hl, rfl⟩ := mem_path.1 hm
  exact ⟨node_pos hl, node_lt_size hl hf⟩

/-- the numbers on the last level that start with a node -/
theorem below_bounds {n : ℕ} (hpos : n ≠ 0) (hlt : n < 2 ^ h) :
    2 ^ (h - 1) ≤ n * 2 ^ (h - 1 - n.log2) ∧ n * 2 ^ (h - 1 - n.log2) + 2 ^ (h - 1 - n.log2) ≤ 2 * 2 ^ (h - 1) := by
  have hlevel : n.log2 < h := (Nat.log2_lt hpos).2 hlt
  constructor
  · calc 2 ^ (h - 1) = 2 ^ n.log2 * 2 ^ (h - 1 - n.log2) := (two_pow_level hlevel).symm
      _ ≤ n * 2 ^ (h - 1 - n.log2) := Nat.mul_le_mul_right _ (Nat.log2_self_le hpos)
  · calc n * 2 ^ (h - 1 - n.log2) + 2 ^ (h - 1 - n.log2) = (n + 1) * 2 ^ (h - 1 - n.log2) := (Nat.succ_mul _ _).symm
      _ ≤ 2 ^ (n.log2 + 1) * 2 ^ (h - 1 - n.log2) := Nat.mul_le_mul_right _ Nat.lt_log2_self
      _ = 2 * 2 ^ (h - 1) := by rw [pow_succ', mul_assoc, two_pow_level hlevel]

/-- the leaves below a node: those whose numbers, moved to the last level, start with the node -/
theorem mem_path_of_below {n : ℕ} (hpos : n ≠ 0) (hlt : n < 2 ^ h) (hge : n * 2 ^ (h - 1 - n.log2) ≤ leaf + 2 ^ (h - 1))
    (hle : leaf + 2 ^ (h - 1) < n * 2 ^ (h - 1 - n.log2) + 2 ^ (h - 1 - n.log2)) :
    leaf < 2 ^ (h - 1) ∧ n ∈ path h leaf := by
  obtain ⟨-, hend⟩ := below_bounds hpos hlt
  refine ⟨by omega, mem_path.2 ⟨n.log2, (Nat.log2_lt hpos).2 hlt, ?_⟩⟩
  rw [node, Nat.div_eq_iff (Nat.two_pow_pos _)]
  omega

/-- the first and the last leaf below a node -/
def leaves (h n : ℕ) : ℕ × ℕ :=
  (n * 2 ^ (h - 1 - n.log2) - 2 ^ (h - 1), (n + 1) * 2 ^ (h - 1 - n.log2) - 1 - 2 ^ (h - 1))

/-- a node of level k has 2^(h - 1 - k) leaves -/
theorem leaves_card {n : ℕ} (hpos : n ≠ 0) (hlt : n < 2 ^ h) :
    (leaves h n).1 ≤ (leaves h n).2 ∧ (leaves h n).2 - (leaves h n).1 + 1 = 2 ^ (h - 1 - n.log2) := by
  obtain ⟨hstart, -⟩ := below_bounds hpos hlt
  have hwidth := Nat.two_pow_pos (h - 1 - n.log2)
  simp only [leaves, Nat.succ_mul]
  omega

/-- **The leaves of a node are those on whose paths it is.** -/
theorem mem_leaves {n : ℕ} (hpos : n ≠ 0) (hlt : n < 2 ^ h) :
    (leaves h n).1 ≤ leaf ∧ leaf ≤ (leaves h n).2 ↔ node h n.log2 leaf = n := by
  obtain ⟨hstart, -⟩ := below_bounds hpos hlt
  have hwidth := Nat.two_pow_pos (h - 1 - n.log2)
  rw [node, Nat.div_eq_iff hwidth]
  simp only [leaves, Nat.succ_mul]
  omega

/-- a node on the path of a leaf is that leaf's node of its level -/
theorem node_of_mem_path (hl : level < h) (hf : leaf < 2 ^ (h - 1)) (hf' : leaf' < 2 ^ (h - 1))
    (hm : node h level leaf ∈ path h leaf') : node h level leaf' = node h level leaf := by
  obtain ⟨level', hl', he⟩ := mem_path.1 hm
  have := node_level_inj hl' hl hf' hf he
  subst this
  exact he

end PathOram.Lib
