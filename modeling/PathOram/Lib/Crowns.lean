/-
Crowns of a complete binary tree, in heap order.

A crown is a set of nodes that has the parents of its nodes: the part of the tree above a cut. The path to a leaf leaves it at a
first node, its exit, or stays in it down to the leaf.

- `border_card`: a crown has few exits, and fewer for each of its nodes on the last level.
- `crowns_sum`: **the weights of all crowns** have a small sum, if a node of the last level weighs at most 1 and any other node
  at most 1/4.
- `fullCrown`: the nodes that have a property with all nodes above them.
-/
import PathOram.Lib.Redraw
import PathOram.Lib.Tree

namespace PathOram.Lib

open scoped ENNReal

variable {h level leaf : ℕ} {T : Finset ℕ}

/-- the parent of a node on a path -/
theorem node_div_two (hl : level + 1 < h) : node h (level + 1) leaf / 2 = node h level leaf := by
  have hexponent : h - 1 - level = h - 1 - (level + 1) + 1 := by omega
  rw [node, node, Nat.div_div_eq_div_mul, ← pow_succ, hexponent]

theorem node_last : node h (h - 1) leaf = leaf + 2 ^ (h - 1) := by
  rw [node, Nat.sub_self, pow_zero, Nat.div_one]

/-- nodes of the tree, with the parent of each that is not the root -/
def Crown (h : ℕ) (T : Finset ℕ) : Prop := (∀ v ∈ T, 1 ≤ v ∧ v < 2 ^ h) ∧ ∀ v ∈ T, v = 1 ∨ v / 2 ∈ T

instance (h : ℕ) (T : Finset ℕ) : Decidable (Crown h T) :=
  inferInstanceAs (Decidable ((∀ v ∈ T, 1 ≤ v ∧ v < 2 ^ h) ∧ ∀ v ∈ T, v = 1 ∨ v / 2 ∈ T))

/-- a crown has all nodes of a path down to one that it has -/
theorem Crown.node_mem (hT : Crown h T) {level' : ℕ} (hle : level ≤ level') (hl : level' < h)
    (hm : node h level' leaf ∈ T) : node h level leaf ∈ T := by
  induction level' with
  | zero => rwa [Nat.le_zero.1 hle]
  | succ k ih =>
    rcases Nat.lt_or_ge k level with hk | hk
    · rwa [Nat.le_antisymm hle hk]
    · apply ih hk (by omega)
      rcases hT.2 _ hm with hroot | hparent
      · have hge : 2 ^ (k + 1) ≤ node h (k + 1) leaf := node_ge hl
        have hone := Nat.one_lt_two_pow (Nat.succ_ne_zero k)
        omega
      · rwa [node_div_two hl] at hparent

/-! ## Exits -/

/-- the first node of a path that is not in the crown -/
def exit (h : ℕ) (T : Finset ℕ) (leaf : ℕ) : Option ℕ := (path h leaf).find? fun v => v ∉ T

theorem exit_eq_some {v : ℕ} (he : exit h T leaf = some v) :
    ∃ level < h, node h level leaf = v ∧ v ∉ T ∧ ∀ k < level, node h k leaf ∈ T := by
  obtain ⟨hv, i, hi, hget, hbefore⟩ := List.find?_eq_some_iff_getElem.1 he
  have hlen : i < h := by simpa [path] using hi
  refine ⟨i, hlen, by simpa [path] using hget, by simpa using hv, fun k hk => ?_⟩
  have hk' := hbefore k hk
  simpa [path] using hk'

theorem exit_eq_none (he : exit h T leaf = none) (hl : level < h) : node h level leaf ∈ T := by
  have hall := List.find?_eq_none.1 he _ (mem_path.2 ⟨level, hl, rfl⟩)
  simpa using hall

/-- nodes outside the crown, of which the parent is in it -/
def border (h : ℕ) (T : Finset ℕ) : Finset ℕ := (Finset.range (2 ^ h)).filter fun v => v ∉ T ∧ (v = 1 ∨ v / 2 ∈ T)

theorem exit_mem_border (hf : leaf < 2 ^ (h - 1)) {v : ℕ} (he : exit h T leaf = some v) : v ∈ border h T := by
  obtain ⟨level, hl, rfl, hv, habove⟩ := exit_eq_some he
  refine Finset.mem_filter.2 ⟨Finset.mem_range.2 (node_lt_size hl hf), hv, ?_⟩
  cases level with
  | zero => exact Or.inl (node_zero (by omega) hf)
  | succ k =>
    rw [node_div_two hl]
    exact Or.inr (habove k (Nat.lt_succ_self k))

/-- the nodes of the crown on the last level -/
def bottom (h : ℕ) (T : Finset ℕ) : Finset ℕ := T.filter fun v => 2 ^ (h - 1) ≤ v

/-- the children of nodes -/
def children (T : Finset ℕ) : Finset ℕ := T.biUnion fun v => {2 * v, 2 * v + 1}

theorem mem_children {v : ℕ} (hv : v / 2 ∈ T) : v ∈ children T := by
  refine Finset.mem_biUnion.2 ⟨v / 2, hv, ?_⟩
  rw [Finset.mem_insert, Finset.mem_singleton]
  omega

theorem children_card_le (T : Finset ℕ) : (children T).card ≤ T.card * 2 :=
  Finset.card_biUnion_le_card_mul _ _ _ fun _ _ => Finset.card_le_two

theorem two_pow_height (hh : 1 ≤ h) : 2 ^ h = 2 * 2 ^ (h - 1) := by
  rw [← pow_succ', Nat.sub_add_cancel hh]

/-- **A crown has few exits.** -/
theorem border_card (hh : 1 ≤ h) (hT : Crown h T) : (border h T).card + 2 * (bottom h T).card ≤ T.card + 1 := by
  have hsplit : (bottom h T).card + (T.filter fun v => ¬ 2 ^ (h - 1) ≤ v).card = T.card :=
    Finset.card_filter_add_card_filter_not _
  have hdisjoint : Disjoint T (border h T) := Finset.disjoint_left.2 fun v hv hb => (Finset.mem_filter.1 hb).2.1 hv
  have hsub : T ∪ border h T ⊆ insert 1 (children (T.filter fun v => ¬ 2 ^ (h - 1) ≤ v)) := by
    intro v hv
    have hparent : v < 2 ^ h ∧ (v = 1 ∨ v / 2 ∈ T) := by
      rcases Finset.mem_union.1 hv with hv | hv
      · exact ⟨(hT.1 v hv).2, hT.2 v hv⟩
      · exact ⟨Finset.mem_range.1 (Finset.mem_filter.1 hv).1, (Finset.mem_filter.1 hv).2.2⟩
    rw [Finset.mem_insert]
    apply hparent.2.imp_right
    intro hp
    have hlt := hparent.1
    rw [two_pow_height hh] at hlt
    exact mem_children (Finset.mem_filter.2 ⟨hp, by omega⟩)
  have hcard := (Finset.card_le_card hsub).trans (Finset.card_insert_le _ _)
  rw [Finset.card_union_of_disjoint hdisjoint] at hcard
  have hchildren := children_card_le (T.filter fun v => ¬ 2 ^ (h - 1) ≤ v)
  omega

/-- the leaves whose paths stay in the crown are those of its nodes on the last level -/
theorem exit_none_share (hh : 1 ≤ h) (T : Finset ℕ) :
    average (2 ^ (h - 1)) (fun x => truth (exit h T x = none)) ≤ ((2 ^ (h - 1) : ℕ) : ℝ≥0∞)⁻¹ * (bottom h T).card := by
  have hinj : Set.InjOn (fun x => x + 2 ^ (h - 1)) ((Finset.range (2 ^ (h - 1))).filter fun x => exit h T x = none) :=
    fun x _ y _ he => Nat.add_right_cancel he
  have hmaps : ∀ x ∈ (Finset.range (2 ^ (h - 1))).filter (fun x => exit h T x = none),
      x + 2 ^ (h - 1) ∈ bottom h T := by
    intro x hx
    have hm : node h (h - 1) x ∈ T := exit_eq_none (Finset.mem_filter.1 hx).2 (by omega)
    rw [node_last] at hm
    exact Finset.mem_filter.2 ⟨hm, Nat.le_add_left _ _⟩
  have hcard := Finset.card_le_card_of_injOn _ hmaps hinj
  rw [average, ← Finset.mul_sum, sum_truth]
  gcongr

/-! ## The weights of crowns -/

/-- all crowns of the tree -/
def crowns (h : ℕ) : Finset (Finset ℕ) := (Finset.range (2 ^ h)).powerset.filter (Crown h)

theorem mem_crowns : T ∈ crowns h ↔ Crown h T := by
  rw [crowns, Finset.mem_filter, Finset.mem_powerset, and_iff_right_iff_imp]
  exact fun hT v hv => Finset.mem_range.2 (hT.1 v hv).2

/-- a crown less its nodes on the last level is one of a tree that is lower by one -/
theorem Crown.top (hT : Crown (h + 1) T) : Crown h (T.filter fun v => v < 2 ^ h) := by
  refine ⟨fun v hv => ⟨(hT.1 v (Finset.mem_filter.1 hv).1).1, (Finset.mem_filter.1 hv).2⟩, fun v hv => ?_⟩
  obtain ⟨hv, hlt⟩ := Finset.mem_filter.1 hv
  exact (hT.2 v hv).imp_right fun hp => Finset.mem_filter.2 ⟨hp, (Nat.div_le_self v 2).trans_lt hlt⟩

/-- the crowns with a given top: the nodes of the last level are children of the level above -/
theorem crowns_fiber_sum {w : ℕ → ℝ≥0∞} (hw : ∀ v, 2 ^ (h + 1) ≤ v → v < 2 ^ (h + 2) → w v ≤ 1) (T : Finset ℕ) :
    ∑ A ∈ (crowns (h + 2)).filter (fun A => A.filter (· < 2 ^ (h + 1)) = T), ∏ v ∈ A, w v ≤
      ∏ v ∈ T, if 2 ^ h ≤ v then 4 * w v else w v := by
  let kids : Finset ℕ := (children (T.filter fun v => 2 ^ h ≤ v)).filter fun v => 2 ^ (h + 1) ≤ v ∧ v < 2 ^ (h + 2)
  let last : Finset ℕ → Finset ℕ := fun A => A.filter fun v => ¬ v < 2 ^ (h + 1)
  have hfiber : ∀ A ∈ (crowns (h + 2)).filter (fun A => A.filter (· < 2 ^ (h + 1)) = T),
      ∏ v ∈ A, w v = (∏ v ∈ T, w v) * ∏ v ∈ last A, w v := by
    intro A hA
    rw [← (Finset.mem_filter.1 hA).2]
    exact (Finset.prod_filter_mul_prod_filter_not A _ _).symm
  have hinj : Set.InjOn last ((crowns (h + 2)).filter (fun A => A.filter (· < 2 ^ (h + 1)) = T)) := by
    intro A hA B hB he
    have htop : A.filter (· < 2 ^ (h + 1)) = B.filter (· < 2 ^ (h + 1)) :=
      (Finset.mem_filter.1 hA).2.trans (Finset.mem_filter.1 hB).2.symm
    calc A = A.filter (· < 2 ^ (h + 1)) ∪ last A := (Finset.filter_union_filter_not_eq _ A).symm
      _ = B.filter (· < 2 ^ (h + 1)) ∪ last B := by rw [htop, he]
      _ = B := Finset.filter_union_filter_not_eq _ B
  have hkids : ((crowns (h + 2)).filter fun A => A.filter (· < 2 ^ (h + 1)) = T).image last ⊆ kids.powerset := by
    intro B hB
    obtain ⟨A, hA, rfl⟩ := Finset.mem_image.1 hB
    obtain ⟨hA, htop⟩ := Finset.mem_filter.1 hA
    have hcrown := mem_crowns.1 hA
    rw [Finset.mem_powerset]
    intro v hv
    obtain ⟨hv, hge⟩ := Finset.mem_filter.1 hv
    have hlt := (hcrown.1 v hv).2
    have hpow : 2 ^ (h + 2) = 2 * 2 ^ (h + 1) := pow_succ' 2 (h + 1)
    have hpow' : 2 ^ (h + 1) = 2 * 2 ^ h := pow_succ' 2 h
    have hpos := Nat.two_pow_pos h
    have hparent : v / 2 ∈ T := by
      rw [← htop]
      refine Finset.mem_filter.2 ⟨(hcrown.2 v hv).resolve_left (by omega), by omega⟩
    refine Finset.mem_filter.2 ⟨mem_children (Finset.mem_filter.2 ⟨hparent, by omega⟩), by omega, hlt⟩
  have hsum : ∑ B ∈ kids.powerset, ∏ v ∈ B, w v ≤ 4 ^ (T.filter fun v => 2 ^ h ≤ v).card := by
    calc ∑ B ∈ kids.powerset, ∏ v ∈ B, w v = ∏ v ∈ kids, (1 + w v) := (Finset.prod_one_add kids).symm
      _ ≤ ∏ _v ∈ kids, 2 := by
          apply Finset.prod_le_prod'
          intro v hv
          obtain ⟨-, hge, hlt⟩ := Finset.mem_filter.1 hv
          rw [← one_add_one_eq_two]
          exact add_le_add_right (hw v hge hlt) 1
      _ = 2 ^ kids.card := Finset.prod_const 2
      _ ≤ 2 ^ ((T.filter fun v => 2 ^ h ≤ v).card * 2) :=
          pow_le_pow_right₀ one_le_two ((Finset.card_filter_le _ _).trans (children_card_le _))
      _ = 4 ^ (T.filter fun v => 2 ^ h ≤ v).card := by
          rw [mul_comm, pow_mul]
          norm_num
  calc ∑ A ∈ (crowns (h + 2)).filter (fun A => A.filter (· < 2 ^ (h + 1)) = T), ∏ v ∈ A, w v
      = (∏ v ∈ T, w v) * ∑ B ∈ ((crowns (h + 2)).filter fun A => A.filter (· < 2 ^ (h + 1)) = T).image last,
          ∏ v ∈ B, w v := by
        rw [Finset.sum_congr rfl hfiber, ← Finset.mul_sum, Finset.sum_image hinj]
    _ ≤ (∏ v ∈ T, w v) * ∑ B ∈ kids.powerset, ∏ v ∈ B, w v := by
        have hle := Finset.sum_le_sum_of_subset (f := fun B => ∏ v ∈ B, w v) hkids
        gcongr
    _ ≤ (∏ v ∈ T, w v) * 4 ^ (T.filter fun v => 2 ^ h ≤ v).card := by gcongr
    _ = ∏ v ∈ T, if 2 ^ h ≤ v then 4 * w v else w v := by
        rw [← Finset.prod_const, Finset.prod_filter, ← Finset.prod_mul_distrib]
        apply Finset.prod_congr rfl
        intro v _
        split_ifs
        · exact mul_comm _ _
        · exact mul_one _

/-- **The weights of all crowns** sum up to 2 at most. -/
theorem crowns_sum {w : ℕ → ℝ≥0∞} (hinner : ∀ v < 2 ^ h, 4 * w v ≤ 1)
    (hlast : ∀ v, 2 ^ h ≤ v → v < 2 ^ (h + 1) → w v ≤ 1) : ∑ T ∈ crowns (h + 1), ∏ v ∈ T, w v ≤ 2 := by
  induction h generalizing w with
  | zero =>
    have hcrowns : crowns 1 = {∅, {1}} := by decide
    rw [hcrowns, Finset.sum_pair (by decide), Finset.prod_empty, Finset.prod_singleton, ← one_add_one_eq_two]
    exact add_le_add_right (hlast 1 le_rfl one_lt_two) 1
  | succ h ih =>
    have hmaps : ∀ A ∈ crowns (h + 2), A.filter (· < 2 ^ (h + 1)) ∈ crowns (h + 1) := fun A hA =>
      mem_crowns.2 (mem_crowns.1 hA).top
    calc ∑ A ∈ crowns (h + 2), ∏ v ∈ A, w v
        = ∑ T ∈ crowns (h + 1), ∑ A ∈ (crowns (h + 2)).filter (fun A => A.filter (· < 2 ^ (h + 1)) = T), ∏ v ∈ A, w v :=
          (Finset.sum_fiberwise_of_maps_to hmaps _).symm
      _ ≤ ∑ T ∈ crowns (h + 1), ∏ v ∈ T, if 2 ^ h ≤ v then 4 * w v else w v :=
          Finset.sum_le_sum fun T _ => crowns_fiber_sum hlast T
      _ ≤ 2 := by
          have hpow : 2 ^ h ≤ 2 ^ (h + 1) := Nat.pow_le_pow_right (by norm_num) (Nat.le_succ h)
          apply ih
          · intro v hv
            rw [if_neg (not_le.2 hv)]
            exact hinner v (hv.trans_le hpow)
          · intro v hge hlt
            rw [if_pos hge]
            exact hinner v hlt

/-! ## The crown of a property -/

open Classical in
/-- the nodes of the tree that have a property, with all nodes above them -/
noncomputable def fullCrown (h : ℕ) (full : ℕ → Prop) : Finset ℕ :=
  Finset.filter (fun v => 1 ≤ v ∧ ∀ j, 1 ≤ v / 2 ^ j → full (v / 2 ^ j)) (Finset.range (2 ^ h))

variable {full : ℕ → Prop}

theorem mem_fullCrown {v : ℕ} :
    v ∈ fullCrown h full ↔ v < 2 ^ h ∧ 1 ≤ v ∧ ∀ j, 1 ≤ v / 2 ^ j → full (v / 2 ^ j) := by
  classical
  rw [fullCrown, Finset.mem_filter, Finset.mem_range]

theorem full_of_mem {v : ℕ} (hv : v ∈ fullCrown h full) : full v := by
  obtain ⟨-, hpos, hall⟩ := mem_fullCrown.1 hv
  have hzero := hall 0
  rw [pow_zero, Nat.div_one] at hzero
  exact hzero hpos

theorem fullCrown_crown (h : ℕ) (full : ℕ → Prop) : Crown h (fullCrown h full) := by
  refine ⟨fun v hv => ⟨(mem_fullCrown.1 hv).2.1, (mem_fullCrown.1 hv).1⟩, fun v hv => ?_⟩
  obtain ⟨hlt, hpos, hall⟩ := mem_fullCrown.1 hv
  rcases Nat.lt_or_ge v 2 with hsmall | hlarge
  · exact Or.inl (by omega)
  · refine Or.inr (mem_fullCrown.2 ⟨by omega, by omega, fun j hj => ?_⟩)
    rw [Nat.div_div_eq_div_mul, ← pow_succ'] at hj ⊢
    exact hall (j + 1) hj

/-- a node with the property below nodes of the crown belongs to it -/
theorem node_mem_fullCrown (hl : level < h) (hf : leaf < 2 ^ (h - 1)) (hfull : full (node h level leaf))
    (habove : ∀ k < level, node h k leaf ∈ fullCrown h full) : node h level leaf ∈ fullCrown h full := by
  refine mem_fullCrown.2 ⟨node_lt_size hl hf, node_pos hl, fun j hj => ?_⟩
  cases j with
  | zero =>
    rw [pow_zero, Nat.div_one]
    exact hfull
  | succ j =>
    rw [pow_succ', ← Nat.div_div_eq_div_mul] at hj ⊢
    cases level with
    | zero =>
      rw [node_zero (by omega) hf] at hj
      simp at hj
    | succ k =>
      rw [node_div_two hl] at hj ⊢
      exact (mem_fullCrown.1 (habove k (Nat.lt_succ_self k))).2.2 j hj

end PathOram.Lib
