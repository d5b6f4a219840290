/-
Leaf ranges and paths are inverse to each other.

`bucketForLevelLeaf` shifts from the leaf to the right, `leavesForLocation` from the location to the left. With exact
shifts they are `node` and `leaves` of a complete tree of the ORAM's height, and `InverseRanges` says how these fit
together, at every height.

- `inverseRanges_node`: **the formulas**, in exact arithmetic.
- `leavesForLocation_eq_leaves`: what the code computes when its shifts are exact.
- `inverseRanges_code`, `leaf_ranges`: **the code**, and `canInclude` as a relation between leaves.
-/
import PathOram.Load

namespace PathOram

open Lib

/-- a map from levels and leaves to locations, and one from locations to the first and the last of their leaves -/
structure InverseRanges (h : ℕ) (bucket : ℕ → ℕ → ℕ) (range : ℕ → ℕ × ℕ) : Prop where
  /-- a leaf is in the range of a location if the location is its bucket -/
  mem_iff : ∀ location, 1 ≤ location → location ≤ 2 ^ h - 1 → ∀ leaf < 2 ^ (h - 1),
    (range location).1 ≤ leaf ∧ leaf ≤ (range location).2 ↔ bucket location.log2 leaf = location
  /-- the number of leaves of a location -/
  card : ∀ location, 1 ≤ location → location ≤ 2 ^ h - 1 →
    (range location).1 ≤ (range location).2 ∧ (range location).2 - (range location).1 + 1 = 2 ^ (h - 1 - location.log2)
  /-- the ranges of a level are a partition of the leaves -/
  partition : ∀ level < h, ∀ leaf < 2 ^ (h - 1), ∃! location,
    (1 ≤ location ∧ location ≤ 2 ^ h - 1 ∧ location.log2 = level) ∧
      (range location).1 ≤ leaf ∧ leaf ≤ (range location).2
  /-- leaves share a bucket if one is in the range of the bucket of the other -/
  share_iff : ∀ level < h, ∀ a < 2 ^ (h - 1), ∀ b < 2 ^ (h - 1), bucket level a = bucket level b ↔
    (range (bucket level a)).1 ≤ b ∧ b ≤ (range (bucket level a)).2
  root : 1 ≤ h → ∀ a < 2 ^ (h - 1), ∀ b < 2 ^ (h - 1), bucket 0 a = bucket 0 b
  /-- leaves that share a bucket share those above it -/
  nested : ∀ level < h, ∀ a < 2 ^ (h - 1), ∀ b < 2 ^ (h - 1), bucket level a = bucket level b →
    ∀ above ≤ level, bucket above a = bucket above b

/-- **The formulas are inverse to each other**, at every height. -/
theorem inverseRanges_node (h : ℕ) : InverseRanges h (node h) (leaves h) where
  mem_iff location hpos hle leaf _ := mem_leaves (by omega) (by have := Nat.two_pow_pos h; omega)
  card location hpos hle := leaves_card (by omega) (by have := Nat.two_pow_pos h; omega)
  partition level hl leaf hf := by
    have hpos : 1 ≤ node h level leaf := node_pos hl
    have hlt : node h level leaf < 2 ^ h := node_lt_size hl hf
    have hlog : (node h level leaf).log2 = level := node_log2 hl hf
    refine ⟨node h level leaf, ⟨⟨hpos, by omega, hlog⟩, ?_⟩, ?_⟩
    · rw [mem_leaves (by omega) hlt, hlog]
    · rintro location ⟨⟨hlpos, hle, rfl⟩, hrange⟩
      exact ((mem_leaves (by omega) (by omega)).1 hrange).symm
  share_iff level hl a ha b hb := by
    have hpos : 1 ≤ node h level a := node_pos hl
    rw [mem_leaves (by omega) (node_lt_size hl ha), node_log2 hl ha]
    exact eq_comm
  root hh a ha b hb := by rw [node_zero hh ha, node_zero hh hb]
  nested level hl a _ b _ he above hle := node_eq_of_le hle hl he

variable {β μ : Type} {O : Oram β μ}

/-- shifts below the width are those up to 30 -/
theorem height_le_of_shifts (hshift : ∀ n < O.height, shlOne n = 2 ^ n) : O.height ≤ 31 := by
  by_contra hwide
  have hbad := hshift 31 (by omega)
  revert hbad
  decide

/-- what `leavesForLocation` computes for a node of the tree -/
theorem leavesForLocation_eq_leaves (hh : O.height ≤ 31) {location : ℕ} (hpos : location ≠ 0)
    (hlt : location < 2 ^ O.height) : O.leavesForLocation location = leaves O.height location := by
  obtain ⟨hfirst, hwidth⟩ := leavesForLocation_eq hh hpos hlt
  obtain ⟨hle, hcard⟩ := leaves_card hpos hlt
  have hsize : 2 ^ (O.height - 1) ≤ 2 ^ 30 := Nat.pow_le_pow_right (by norm_num) (by omega)
  obtain ⟨hstart, hend⟩ := below_bounds hpos hlt
  have hlast : (O.leavesForLocation location).2 < 2 ^ 64 := Nat.mod_lt _ (by norm_num)
  have hfirst' : (leaves O.height location).1 = location * 2 ^ (O.height - 1 - location.log2) - 2 ^ (O.height - 1) := rfl
  refine Prod.ext (hfirst.trans hfirst'.symm) ?_
  rw [hfirst, ← hfirst'] at hwidth
  generalize (O.leavesForLocation location).2 = last at *
  generalize (leaves O.height location).1 = first at *
  generalize (leaves O.height location).2 = last' at *
  have hpow : 2 ^ (O.height - 1 - location.log2) ≤ 2 ^ 30 := Nat.pow_le_pow_right (by norm_num) (by omega)
  unfold sub64 at hwidth
  omega

/-- the code's two formulas are those of the tree -/
theorem inverseRanges_code (hpos : 1 ≤ O.height) (hh : O.height ≤ 31) :
    InverseRanges O.height O.bucketForLevelLeaf O.leavesForLocation := by
  have hnode : ∀ {level leaf}, level < O.height → leaf < 2 ^ (O.height - 1) →
      O.bucketForLevelLeaf level leaf = node O.height level leaf := O.bucketForLevelLeaf_eq_node hh
  have hleaves : ∀ location, 1 ≤ location → location ≤ 2 ^ O.height - 1 →
      O.leavesForLocation location = leaves O.height location := fun location h1 h2 =>
    leavesForLocation_eq_leaves hh (by omega) (by have := Nat.two_pow_pos O.height; omega)
  have hlog : ∀ location, 1 ≤ location → location ≤ 2 ^ O.height - 1 → location.log2 < O.height := fun location h1 h2 =>
    (Nat.log2_lt (by omega)).2 (by have := Nat.two_pow_pos O.height; omega)
  have h := inverseRanges_node O.height
  refine ⟨fun location h1 h2 leaf hf => ?_, fun location h1 h2 => ?_, fun level hl leaf hf => ?_,
    fun level hl a ha b hb => ?_, fun _ a ha b hb => ?_, fun level hl a ha b hb he above hle => ?_⟩
  · rw [hleaves location h1 h2, hnode (hlog location h1 h2) hf]
    exact h.mem_iff location h1 h2 leaf hf
  · rw [hleaves location h1 h2]
    exact h.card location h1 h2
  · obtain ⟨location, ⟨⟨h1, h2, h3⟩, hrange⟩, hunique⟩ := h.partition level hl leaf hf
    refine ⟨location, ⟨⟨h1, h2, h3⟩, by rwa [hleaves location h1 h2]⟩, ?_⟩
    rintro location' ⟨⟨h1', h2', h3'⟩, hrange'⟩
    rw [hleaves location' h1' h2'] at hrange'
    exact hunique location' ⟨⟨h1', h2', h3'⟩, hrange'⟩
  · have hpos' : 1 ≤ node O.height level a := node_pos hl
    have hlt' := node_lt_size hl ha
    rw [hnode hl ha, hnode hl hb, hleaves _ hpos' (by omega)]
    exact h.share_iff level hl a ha b hb
  · rw [hnode hpos ha, hnode hpos hb]
    exact h.root hpos a ha b hb
  · have hl' : above < O.height := by omega
    rw [hnode hl ha, hnode hl hb] at he
    rw [hnode hl' ha, hnode hl' hb]
    exact h.nested level hl a ha b hb he above hle

/-- **Leaf ranges and paths are exact inverses**: the formulas at every height, and so the code at every height at which its
shifts are exact; and `canInclude` is the relation of leaves that share a bucket. -/
theorem leaf_ranges :
    (∀ h, InverseRanges h (node h) (leaves h)) ∧
    ∀ O : Oram β μ, 1 ≤ O.height → (∀ n < O.height, shlOne n = 2 ^ n) →
      InverseRanges O.height O.bucketForLevelLeaf O.leavesForLocation ∧
      (∀ level < O.height, ∀ a < 2 ^ (O.height - 1), ∀ b < 2 ^ (O.height - 1),
        O.canInclude a b level = true ↔ (O.leavesForLocation (O.bucketForLevelLeaf level a)).1 ≤ b ∧
          b ≤ (O.leavesForLocation (O.bucketForLevelLeaf level a)).2) ∧
      (∀ level, Equivalence fun a b => O.canInclude a b level = true) ∧
      (∀ a < 2 ^ (O.height - 1), ∀ b < 2 ^ (O.height - 1), O.canInclude a b 0 = true) ∧
      ∀ level < O.height, ∀ a < 2 ^ (O.height - 1), ∀ b < 2 ^ (O.height - 1), O.canInclude a b level = true →
        ∀ above ≤ level, O.canInclude a b above = true := by
  refine ⟨inverseRanges_node, fun O hpos hshift => ?_⟩
  have hh := height_le_of_shifts hshift
  have hcan : ∀ {a b level}, O.canInclude a b level = true ↔ O.bucketForLevelLeaf level a = O.bucketForLevelLeaf level b :=
    beq_iff_eq
  have hranges := inverseRanges_code hpos hh
  refine ⟨hranges, fun level hl a ha b hb => ?_, fun level => ⟨fun a => ?_, fun he => ?_, fun he he' => ?_⟩,
    fun a ha b hb => ?_, fun level hl a ha b hb he above hle => ?_⟩
  · rw [hcan]
    exact hranges.share_iff level hl a ha b hb
  · rw [hcan]
  · rw [hcan] at he ⊢
    exact he.symm
  · rw [hcan] at he he' ⊢
    exact he.trans he'
  · rw [hcan]
    exact hranges.root hpos a ha b hb
  · rw [hcan] at he ⊢
    exact hranges.nested level hl a ha b hb he above hle

theorem leaf_ranges_tiny :
    InverseRanges 3 (inMemoryOram tinyStorage plainCrypto 2 6 3 4).bucketForLevelLeaf
      (inMemoryOram tinyStorage plainCrypto 2 6 3 4).leavesForLocation :=
  (leaf_ranges.2 (inMemoryOram tinyStorage plainCrypto 2 6 3 4) (by decide) (by decide)).1

end PathOram
