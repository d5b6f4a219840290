/-
Crowds in a complete binary tree.

Items have leaves of a complete binary tree, and a crown holds those that no path has led past their exits. A crown is crowded
if it holds more items than Z for each node, and R besides.

- `burden`: the weight of what a crown holds, and `burden_mean` its mean over uniform leaves.
- `crowded_chance`: **a crowd is unlikely**: its chance falls geometrically in R, if a node with room for Z items weighs little
  enough for all crowns together, and the leaves are not shared by too many items.
- `crowded_chance_five`: the same with numbers, for Z of 5 and more and at most five items for each leaf.
-/
import PathOram.Lib.Crowns
import PathOram.Lib.Survivors
import Mathlib.Analysis.SpecialFunctions.Log.Deriv
import Mathlib.Analysis.Complex.ExponentialBounds

namespace PathOram.Lib

open scoped ENNReal NNReal

variable {h Z R : ℕ} {ids : Finset ℕ}

/-- some crown holds more items than its nodes have room for, and R -/
def Crowded (h Z : ℕ) (ids : Finset ℕ) (R : ℕ) (reads : List (ℕ × ℕ)) (pos : ℕ → ℕ) : Prop :=
  ∃ T ∈ crowns h, T.Nonempty ∧ ∃ kept ⊆ ids, (∀ id ∈ kept, Survives (exit h T) reads id (pos id)) ∧
    Z * T.card + R < kept.card

section Chance

variable {z G b : ℝ≥0∞}

/-- what is in a crown, weighed -/
noncomputable def burden (h : ℕ) (z : ℝ≥0∞) (T ids : Finset ℕ) (reads : List (ℕ × ℕ)) (pos : ℕ → ℕ) : ℝ≥0∞ :=
  ∏ id ∈ ids, (1 + z * truth (Survives (exit h T) reads id (pos id)))

/-- a crowd weighs more than its room -/
theorem crowded_le (hb : b * (1 + z) = 1) (reads : List (ℕ × ℕ)) (pos : ℕ → ℕ) :
    truth (Crowded h Z ids R reads pos) ≤
      ∑ T ∈ (crowns h).erase ∅, b ^ (Z * T.card + R + 1) * burden h z T ids reads pos := by
  by_cases hcrowded : Crowded h Z ids R reads pos
  · obtain ⟨T, hT, hne, kept, hkept, hsurvive, hmany⟩ := hcrowded
    have hburden : (1 + z) ^ (Z * T.card + R + 1) ≤ burden h z T ids reads pos := by
      calc (1 + z) ^ (Z * T.card + R + 1) ≤ (1 + z) ^ kept.card := pow_le_pow_right₀ le_self_add hmany
        _ = ∏ id ∈ kept, (1 + z * truth (Survives (exit h T) reads id (pos id))) := by
            rw [← Finset.prod_const]
            exact Finset.prod_congr rfl fun id hid => by simp [hsurvive id hid]
        _ ≤ burden h z T ids reads pos := Finset.prod_le_prod_of_subset_of_one_le' hkept fun _ _ _ => le_self_add
    calc truth (Crowded h Z ids R reads pos) ≤ 1 := by
          rw [← truth_true]
          exact truth_mono fun _ => trivial
      _ = b ^ (Z * T.card + R + 1) * (1 + z) ^ (Z * T.card + R + 1) := by rw [← mul_pow, hb, one_pow]
      _ ≤ b ^ (Z * T.card + R + 1) * burden h z T ids reads pos := by gcongr
      _ ≤ ∑ T ∈ (crowns h).erase ∅, b ^ (Z * T.card + R + 1) * burden h z T ids reads pos :=
          Finset.single_le_sum_of_canonicallyOrdered (f := fun T => b ^ (Z * T.card + R + 1) * burden h z T ids reads pos)
            (Finset.mem_erase.2 ⟨hne.ne_empty, hT⟩)
  · simp [hcrowded]

/-- **What a crown carries on average**: a factor G for each exit, and for each node of the last level. -/
theorem burden_mean (hh : 1 ≤ h) (hG : G = 1 + z * G) {all : List ℕ} (hall : all.Nodup) (hids : ∀ id ∈ ids, id ∈ all)
    {room : ℝ≥0∞} (hroom : (1 + z * ((2 ^ (h - 1) : ℕ) : ℝ≥0∞)⁻¹) ^ ids.card ≤ room) (T : Finset ℕ) (is : List ℕ)
    (p : ℕ → ℕ) :
    averageLists (2 ^ (h - 1)) is.length (fun xs =>
        redrawAll (2 ^ (h - 1)) all (burden h z T ids (is.zip xs).reverse) p) ≤
      G ^ (border h T).card * room ^ (bottom h T).card := by
  set N := 2 ^ (h - 1) with hN
  have hpos : 0 < N := Nat.two_pow_pos _
  have hclassless : (1 + z * classless (exit h T) N) ^ ids.card ≤ room ^ (bottom h T).card := by
    calc (1 + z * classless (exit h T) N) ^ ids.card
        ≤ (1 + z * ((N : ℝ≥0∞)⁻¹ * (bottom h T).card)) ^ ids.card := by
          have hshare : classless (exit h T) N ≤ (N : ℝ≥0∞)⁻¹ * (bottom h T).card := exit_none_share hh T
          gcongr
      _ = (1 + (bottom h T).card * (z * (N : ℝ≥0∞)⁻¹)) ^ ids.card := by ring
      _ ≤ ((1 + z * (N : ℝ≥0∞)⁻¹) ^ (bottom h T).card) ^ ids.card := by
          have hbernoulli := one_add_le_pow_of_two_add_nonneg (a := z * (N : ℝ≥0∞)⁻¹) zero_le (bottom h T).card
          gcongr
      _ = ((1 + z * (N : ℝ≥0∞)⁻¹) ^ ids.card) ^ (bottom h T).card := pow_right_comm _ _ _
      _ ≤ room ^ (bottom h T).card := by gcongr
  calc averageLists N is.length (fun xs => redrawAll N all (burden h z T ids (is.zip xs).reverse) p)
      = averageLists N is.length fun xs => ∏ id ∈ ids, average N fun x =>
          1 + z * truth (Survives (exit h T) (is.reverse.zip xs.reverse) id x) := by
        apply averageLists_congr
        intro xs hlen _
        have hreverse : is.reverse.zip xs.reverse = (is.zip xs).reverse := by
          simp only [List.zip_eq_zipWith, List.reverse_zipWith hlen.symm]
        rw [hreverse]
        exact redrawAll_prod hpos hall hids (fun id x => 1 + z * truth (Survives (exit h T) _ id x)) p
    _ = averageLists N is.reverse.length fun xs => ∏ id ∈ ids, average N fun x =>
          1 + z * truth (Survives (exit h T) (is.reverse.zip xs) id x) := by
        rw [List.length_reverse]
        exact averageLists_reverse is.length fun xs => ∏ id ∈ ids, average N fun x =>
          1 + z * truth (Survives (exit h T) (is.reverse.zip xs) id x)
    _ ≤ G ^ (border h T).card * (1 + z * classless (exit h T) N) ^ ids.card :=
        survivors_moment hG hpos (fun x hx c hc => exit_mem_border hx hc) is.reverse ids
    _ ≤ G ^ (border h T).card * room ^ (bottom h T).card := by gcongr

/-- the exits and the room of a crown against its nodes -/
theorem burden_room (hh : 1 ≤ h) (hG : 1 ≤ G) (hb : b * (1 + z) = 1) {T : Finset ℕ} (hT : Crown h T) :
    b ^ (Z * T.card) * (G ^ (border h T).card * (G * (1 + z) ^ Z) ^ (bottom h T).card) ≤
      G * ∏ v ∈ T, if v < 2 ^ (h - 1) then G * b ^ Z else 1 := by
  set inner := (T.filter fun v => v < 2 ^ (h - 1)).card with hinner
  have hsplit : inner + (bottom h T).card = T.card := by
    have hsum := Finset.card_filter_add_card_filter_not (s := T) (fun v => v < 2 ^ (h - 1))
    simp only [not_lt] at hsum
    exact hsum
  have hborder := border_card hh hT
  have hle : G ^ ((border h T).card + (bottom h T).card) ≤ G ^ (1 + inner) := pow_le_pow_right₀ hG (by omega)
  have hone : b ^ Z * (1 + z) ^ Z = 1 := by rw [← mul_pow, hb, one_pow]
  calc b ^ (Z * T.card) * (G ^ (border h T).card * (G * (1 + z) ^ Z) ^ (bottom h T).card)
      = (b ^ Z) ^ inner * (b ^ Z * (1 + z) ^ Z) ^ (bottom h T).card *
          G ^ ((border h T).card + (bottom h T).card) := by
        rw [← hsplit, pow_mul, pow_add, pow_add, mul_pow, mul_pow]
        ring
    _ ≤ (b ^ Z) ^ inner * (b ^ Z * (1 + z) ^ Z) ^ (bottom h T).card * G ^ (1 + inner) := by gcongr
    _ = G * (G * b ^ Z) ^ inner := by
        rw [hone, one_pow, mul_one, pow_add, pow_one, mul_pow]
        ring
    _ = G * ∏ v ∈ T, if v < 2 ^ (h - 1) then G * b ^ Z else 1 := by
        rw [Finset.prod_ite, Finset.prod_const_one, mul_one, Finset.prod_const]

/-- **A crowd is unlikely**: items are put in any order, each with a uniform leaf, and each step clears a uniform path. -/
theorem crowded_chance (hh : 1 ≤ h) (hG : G = 1 + z * G) (hb : b * (1 + z) = 1) (hquarter : 4 * (G * b ^ Z) ≤ 1)
    {all : List ℕ} (hall : all.Nodup) (hids : ∀ id ∈ ids, id ∈ all)
    (hload : (1 + z * ((2 ^ (h - 1) : ℕ) : ℝ≥0∞)⁻¹) ^ ids.card ≤ G * (1 + z) ^ Z) (R : ℕ) (is : List ℕ) (p : ℕ → ℕ) :
    averageLists (2 ^ (h - 1)) is.length (fun xs =>
        redrawAll (2 ^ (h - 1)) all (fun pos => truth (Crowded h Z ids R (is.zip xs).reverse pos)) p) ≤
      G * b ^ (R + 1) := by
  set N := 2 ^ (h - 1) with hN
  let w : ℕ → ℝ≥0∞ := fun v => if v < N then G * b ^ Z else 1
  have hcrowns : ∑ T ∈ (crowns h).erase ∅, ∏ v ∈ T, w v ≤ 1 := by
    have hheight : h - 1 + 1 = h := Nat.sub_add_cancel hh
    have hempty : ∅ ∈ crowns h := mem_crowns.2 ⟨by simp, by simp⟩
    have hsum : ∑ T ∈ crowns (h - 1 + 1), ∏ v ∈ T, w v ≤ 2 := by
      apply crowns_sum
      · intro v hv
        have hlt : v < N := hv
        simpa only [w, if_pos hlt] using hquarter
      · intro v hge _
        have hnot : ¬ v < N := not_lt.2 hge
        simp only [w, if_neg hnot, le_refl]
    rw [hheight, ← Finset.add_sum_erase _ _ hempty, Finset.prod_empty, ← one_add_one_eq_two] at hsum
    exact (ENNReal.add_le_add_iff_left ENNReal.one_ne_top).1 hsum
  calc averageLists N is.length (fun xs =>
          redrawAll N all (fun pos => truth (Crowded h Z ids R (is.zip xs).reverse pos)) p)
      ≤ averageLists N is.length fun xs => redrawAll N all (fun pos =>
          ∑ T ∈ (crowns h).erase ∅, b ^ (Z * T.card + R + 1) * burden h z T ids (is.zip xs).reverse pos) p :=
        averageLists_mono fun xs _ _ => redrawAll_mono (fun pos => crowded_le hb _ pos) p
    _ = ∑ T ∈ (crowns h).erase ∅, b ^ (Z * T.card + R + 1) *
          averageLists N is.length fun xs => redrawAll N all (burden h z T ids (is.zip xs).reverse) p := by
        simp only [redrawAll_sum, redrawAll_mul, averageLists_sum, averageLists_mul]
    _ ≤ ∑ T ∈ (crowns h).erase ∅, b ^ (Z * T.card + R + 1) *
          (G ^ (border h T).card * (G * (1 + z) ^ Z) ^ (bottom h T).card) := by
        apply Finset.sum_le_sum
        intro T _
        have hmean := burden_mean hh hG hall hids hload T is p
        gcongr
    _ ≤ ∑ T ∈ (crowns h).erase ∅, b ^ (R + 1) * (G * ∏ v ∈ T, w v) := by
        apply Finset.sum_le_sum
        intro T hT
        have hroom := burden_room (Z := Z) hh (one_le_growth hG) hb (mem_crowns.1 (Finset.mem_of_mem_erase hT))
        calc b ^ (Z * T.card + R + 1) * (G ^ (border h T).card * (G * (1 + z) ^ Z) ^ (bottom h T).card)
            = b ^ (R + 1) *
                (b ^ (Z * T.card) * (G ^ (border h T).card * (G * (1 + z) ^ Z) ^ (bottom h T).card)) := by ring
          _ ≤ b ^ (R + 1) * (G * ∏ v ∈ T, w v) := by gcongr
    _ = b ^ (R + 1) * G * ∑ T ∈ (crowns h).erase ∅, ∏ v ∈ T, w v := by
        rw [Finset.mul_sum]
        simp only [mul_assoc]
    _ ≤ b ^ (R + 1) * G * 1 := by gcongr
    _ = G * b ^ (R + 1) := by rw [mul_one, mul_comm]

end Chance

/-! ## Numbers -/

/-- growth by an N-th of 2/3, N times over, is at most twofold -/
theorem growth_le_two (N : ℕ) : (1 + 2 / 3 * (N : ℝ≥0∞)⁻¹) ^ N ≤ 2 := by
  rcases Nat.eq_zero_or_pos N with rfl | hN
  · simp
  · have hpos : (0 : ℝ) < N := Nat.cast_pos.2 hN
    have hreal : (1 + 2 / 3 * (N : ℝ)⁻¹) ^ N ≤ 2 := by
      calc (1 + 2 / 3 * (N : ℝ)⁻¹) ^ N ≤ Real.exp (2 / 3 * (N : ℝ)⁻¹) ^ N := by
            gcongr
            rw [add_comm]
            exact Real.add_one_le_exp _
        _ = Real.exp (2 / 3) := by
            rw [← Real.exp_nat_mul]
            congr 1
            field_simp
        _ ≤ Real.exp (Real.log 2) := Real.exp_le_exp.2 (by linarith only [Real.log_two_gt_d9])
        _ = 2 := Real.exp_log two_pos
    have hcast : (1 + 2 / 3 * (N : ℝ≥0∞)⁻¹) ^ N = ENNReal.ofReal ((1 + 2 / 3 * (N : ℝ)⁻¹) ^ N) := by
      rw [ENNReal.ofReal_pow (by positivity), ENNReal.ofReal_add zero_le_one (by positivity),
        ENNReal.ofReal_mul (by positivity), ENNReal.ofReal_inv_of_pos hpos, ENNReal.ofReal_natCast,
        ENNReal.ofReal_div_of_pos three_pos]
      simp
    rw [hcast, ← ENNReal.ofReal_ofNat]
    exact ENNReal.ofReal_le_ofReal hreal

/-- **A crowd is unlikely** if the nodes have room for five items and more, and there are at most five for each leaf. -/
theorem crowded_chance_five (hh : 1 ≤ h) (hZ : 5 ≤ Z) {all : List ℕ} (hall : all.Nodup) (hids : ∀ id ∈ ids, id ∈ all)
    (hload : ids.card ≤ 5 * 2 ^ (h - 1)) (R : ℕ) (is : List ℕ) (p : ℕ → ℕ) :
    averageLists (2 ^ (h - 1)) is.length (fun xs =>
        redrawAll (2 ^ (h - 1)) all (fun pos => truth (Crowded h Z ids R (is.zip xs).reverse pos)) p) ≤
      3 * (3 / 5) ^ (R + 1) := by
  have hle : (3 / 5 : ℝ≥0∞) ≤ 1 := ENNReal.div_le_of_le_mul (by norm_num)
  have hthree : (2 / 3 : ℝ≥0∞) * 3 = 2 := ENNReal.div_mul_cancel (by norm_num) (by norm_num)
  have hfive : (1 : ℝ≥0∞) + 2 / 3 = 5 / 3 := by
    rw [← ENNReal.div_self (by norm_num : (3 : ℝ≥0∞) ≠ 0) (by norm_num), ENNReal.div_add_div_same]
    norm_num
  have hinv : (3 / 5 : ℝ≥0∞) * (1 + 2 / 3) = 1 := by
    rw [hfive, ← ENNReal.inv_div (by norm_num) (by norm_num)]
    exact ENNReal.inv_mul_cancel (by norm_num) (ENNReal.div_ne_top (by norm_num) (by norm_num))
  apply crowded_chance hh _ hinv _ hall hids _ R is p
  · rw [hthree]; norm_num
  · calc 4 * (3 * (3 / 5 : ℝ≥0∞) ^ Z) ≤ 4 * (3 * (3 / 5 : ℝ≥0∞) ^ 5) := by
          have hpow : (3 / 5 : ℝ≥0∞) ^ Z ≤ (3 / 5) ^ 5 := pow_le_pow_right_of_le_one' hle hZ
          gcongr
      _ = ((4 * (3 * (3 / 5) ^ 5) : ℝ≥0) : ℝ≥0∞) := by push_cast; simp
      _ ≤ 1 := ENNReal.coe_le_one_iff.2 (NNReal.coe_le_coe.1 (by push_cast; norm_num))
  · calc (1 + 2 / 3 * ((2 ^ (h - 1) : ℕ) : ℝ≥0∞)⁻¹) ^ ids.card
        ≤ (1 + 2 / 3 * ((2 ^ (h - 1) : ℕ) : ℝ≥0∞)⁻¹) ^ (2 ^ (h - 1) * 5) := pow_le_pow_right₀ le_self_add (by omega)
      _ = ((1 + 2 / 3 * ((2 ^ (h - 1) : ℕ) : ℝ≥0∞)⁻¹) ^ (2 ^ (h - 1))) ^ 5 := pow_mul _ _ _
      _ ≤ 2 ^ 5 := by
          have hgrowth := growth_le_two (2 ^ (h - 1))
          gcongr
      _ = ((2 ^ 5 : ℝ≥0) : ℝ≥0∞) := by simp
      _ ≤ ((3 * (1 + 2 / 3) ^ 5 : ℝ≥0) : ℝ≥0∞) := ENNReal.coe_le_coe.2 (NNReal.coe_le_coe.1 (by push_cast; norm_num))
      _ = 3 * (1 + 2 / 3) ^ 5 := by push_cast; simp
      _ ≤ 3 * (1 + 2 / 3) ^ Z := by
          have hpow : (1 + 2 / 3 : ℝ≥0∞) ^ 5 ≤ (1 + 2 / 3) ^ Z := pow_le_pow_right₀ le_self_add hZ
          gcongr
end PathOram.Lib
