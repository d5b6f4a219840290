/-
Items in classes that are cleared again.

Items are put into the classes of uniform values, and each step clears one class, that of a uniform value of its own, before it
puts an item. An item survives while nothing clears its class; values without a class are never cleared. The steps are listed
from the last one back, each with the item that it puts and the value whose class it clears.

- `Survives`: the item with the value x has not been cleared since it was put last.
- `survivors_moment`: **the exponential moment of the number of survivors** is bounded by the number of classes, whatever the
  order of the items and however many the steps, but for the values without a class.
-/
import PathOram.Lib.Redraw
import Mathlib.Algebra.Order.Ring.Pow

namespace PathOram.Lib

open scoped ENNReal

variable {ι κ : Type} [DecidableEq ι] [DecidableEq κ]

section

variable (cls : ℕ → Option κ)

/-- the item with the value x was put, and not cleared since -/
def Survives : List (ι × ℕ) → ι → ℕ → Prop
  | [], _, _ => False
  | step :: steps, i, x => (cls x = none ∨ cls step.2 ≠ cls x) ∧ (step.1 = i ∨ Survives steps i x)

/-- the value has one of the classes, or none -/
def Open (A : Finset κ) (x : ℕ) : Prop := ∀ c, cls x = some c → c ∈ A

/-- the classes less that of a value -/
def without (A : Finset κ) (y : ℕ) : Finset κ := A.filter fun c => cls y ≠ some c

/-- the part of the values below n that have one of the classes -/
noncomputable def weight (n : ℕ) (A : Finset κ) : ℝ≥0∞ := average n fun x => truth (∃ c ∈ A, cls x = some c)

/-- the part of the values below n that have no class -/
noncomputable def classless (n : ℕ) : ℝ≥0∞ := average n fun x => truth (cls x = none)

end

variable {cls : ℕ → Option κ} {n : ℕ} {A : Finset κ}

omit [DecidableEq ι] in
/-- a step clears a class -/
theorem survives_cons_open {step : ι × ℕ} {steps : List (ι × ℕ)} {i : ι} {x : ℕ} :
    Survives cls (step :: steps) i x ∧ Open cls A x ↔
      (step.1 = i ∨ Survives cls steps i x) ∧ Open cls (without cls A step.2) x := by
  have hopen : (cls x = none ∨ cls step.2 ≠ cls x) ∧ Open cls A x ↔ Open cls (without cls A step.2) x := by
    cases hx : cls x with
    | none => simp [Open, hx]
    | some c =>
      simp [Open, without, hx]
      tauto
  rw [Survives, ← hopen]
  tauto

omit [DecidableEq κ] in
/-- the share of the values that are not cleared -/
theorem average_open : average n (fun x => truth (Open cls A x)) = weight cls n A + classless cls n := by
  rw [weight, classless, ← average_add]
  apply average_congr
  intro x _
  rw [← truth_or_of_not_and fun h => by
    obtain ⟨⟨c, -, hc⟩, hx⟩ := h
    rw [hx] at hc
    cases hc]
  congr 1
  cases hx : cls x with
  | none => simp [Open, hx]
  | some c => simp [Open, hx]

omit [DecidableEq κ] in
theorem weight_empty (n : ℕ) : weight cls n ∅ = 0 := by
  simp [weight, average]

theorem weight_without_le (y : ℕ) : weight cls n (without cls A y) ≤ weight cls n A := by
  apply average_mono
  intro x _
  apply truth_mono
  intro h
  obtain ⟨c, hc, hx⟩ := h
  exact ⟨c, (Finset.mem_filter.1 hc).1, hx⟩

/-! ## One step -/

section Step

variable {z G : ℝ≥0∞} (hG : G = 1 + z * G) (hn : 0 < n)

include hG

omit [DecidableEq ι] [DecidableEq κ] in
theorem one_le_growth : 1 ≤ G := by
  rw [hG]
  exact le_self_add

/-- a value has the class of one of m + 1, which is cleared, or leaves them alone -/
theorem growth_mul_le {W V : ℝ≥0∞} (hsum : W + V = 1) : (1 + z * W) * (W + V * G) ≤ G := by
  have hV : V ≤ 1 := hsum ▸ le_add_self
  calc (1 + z * W) * (W + V * G) = (1 + z * W) * (W + V * (1 + z * G)) := by rw [← hG]
    _ = (1 + z * W) * ((W + V) + z * V * G) := by ring
    _ = 1 + z * V * G + z * W * (1 + z * (V * G)) := by rw [hsum]; ring
    _ ≤ 1 + z * V * G + z * W * (1 + z * (1 * G)) := by gcongr
    _ = 1 + z * V * G + z * W * G := by rw [one_mul, ← hG]
    _ = 1 + z * ((W + V) * G) := by ring
    _ = G := by rw [hsum, one_mul, ← hG]

include hn

/-- **A step clears a class and puts an item.** -/
theorem clear_and_put (A : Finset κ) :
    average n (fun y => (1 + z * weight cls n (without cls A y)) * G ^ (without cls A y).card) ≤ G ^ A.card := by
  have hone := one_le_growth hG
  cases hcard : A.card with
  | zero =>
    obtain rfl := Finset.card_eq_zero.1 hcard
    simp [without, weight_empty, average_const hn]
  | succ m =>
    set W := weight cls n A with hW
    set V := average n fun y => truth (¬ ∃ c ∈ A, cls y = some c) with hV
    have hsum : W + V = 1 := by
      rw [hW, hV, weight, ← average_add, average_congr fun y _ => truth_add_not _]
      exact average_const hn 1
    have hvalue : ∀ y, (1 + z * weight cls n (without cls A y)) * G ^ (without cls A y).card ≤
        (1 + z * W) * G ^ m * (truth (∃ c ∈ A, cls y = some c) + truth (¬ ∃ c ∈ A, cls y = some c) * G) := by
      intro y
      have hle : 1 + z * weight cls n (without cls A y) ≤ 1 + z * W := by
        have hle : weight cls n (without cls A y) ≤ weight cls n A := weight_without_le y
        gcongr
      by_cases hy : ∃ c ∈ A, cls y = some c
      · obtain ⟨c, hc, hyc⟩ := hy
        have hsub : without cls A y ⊆ A.erase c := by
          intro d hd
          obtain ⟨hd, hne⟩ := Finset.mem_filter.1 hd
          exact Finset.mem_erase.2 ⟨fun he => hne (he ▸ hyc), hd⟩
        have hless : (without cls A y).card ≤ m := by
          have h := Finset.card_le_card hsub
          rw [Finset.card_erase_of_mem hc, hcard] at h
          exact h
        have hpow : G ^ (without cls A y).card ≤ G ^ m := pow_le_pow_right₀ hone hless
        have hin : ∃ c ∈ A, cls y = some c := ⟨c, hc, hyc⟩
        simp only [hin, not_true, truth_true, truth_false, zero_mul, add_zero, mul_one]
        exact mul_le_mul' hle hpow
      · have hless : (without cls A y).card ≤ m + 1 := hcard ▸ Finset.card_filter_le _ _
        have hpow : G ^ (without cls A y).card ≤ G ^ m * G := (pow_le_pow_right₀ hone hless).trans_eq (pow_succ G m)
        simp only [hy, not_false_eq_true, truth_true, truth_false, zero_add, one_mul]
        rw [mul_assoc]
        exact mul_le_mul' hle hpow
    calc average n (fun y => (1 + z * weight cls n (without cls A y)) * G ^ (without cls A y).card)
        ≤ average n fun y => (1 + z * W) * G ^ m *
            (truth (∃ c ∈ A, cls y = some c) + truth (¬ ∃ c ∈ A, cls y = some c) * G) := average_mono fun y _ => hvalue y
      _ = (1 + z * W) * G ^ m * (W + V * G) := by
          rw [average_mul, average_add, hW, hV, weight]
          simp only [mul_comm _ G, average_mul]
      _ = G ^ m * ((1 + z * W) * (W + V * G)) := by ring
      _ ≤ G ^ m * G := by
          have h := growth_mul_le hG hsum
          gcongr
      _ = G ^ (m + 1) := (pow_succ G m).symm

/-- a step that puts nothing new clears a class -/
theorem clear_le (A : Finset κ) : average n (fun y => G ^ (without cls A y).card) ≤ G ^ A.card := by
  calc average n (fun y => G ^ (without cls A y).card)
      ≤ average n fun _ => G ^ A.card :=
        average_mono fun y _ => pow_le_pow_right₀ (one_le_growth hG) (Finset.card_filter_le _ _)
    _ = G ^ A.card := average_const hn _

/-! ## All steps -/

/-- the moment, with some of the classes left -/
theorem survivors_moment_open (is : List ι) (A : Finset κ) (P : Finset ι) :
    averageLists n is.length (fun ys => ∏ i ∈ P, average n fun x =>
        1 + z * truth (Survives cls (is.zip ys) i x ∧ Open cls A x)) ≤
      G ^ A.card * (1 + z * classless cls n) ^ P.card := by
  induction is generalizing A P with
  | nil =>
    have hone : ∀ i : ι, (average n fun x => 1 + z * truth (Survives cls ([] : List (ι × ℕ)) i x ∧ Open cls A x)) = 1 := by
      intro i
      simp [Survives, average_const hn]
    simp only [List.zip_nil_left, hone, Finset.prod_const_one]
    exact one_le_mul (one_le_pow_of_one_le' (one_le_growth hG) _) (one_le_pow_of_one_le' le_self_add _)
  | cons j is ih =>
    set τ := classless cls n with hτ
    have hrest : ∀ (y : ℕ) (ys : List ℕ) (i : ι), j ≠ i →
        (average n fun x => 1 + z * truth (Survives cls ((j :: is).zip (y :: ys)) i x ∧ Open cls A x)) =
          average n fun x => 1 + z * truth (Survives cls (is.zip ys) i x ∧ Open cls (without cls A y) x) := by
      intro y ys i hi
      rw [List.zip_cons_cons]
      simp only [survives_cons_open, hi, false_or]
    by_cases hj : j ∈ P
    · have hput : ∀ (y : ℕ) (ys : List ℕ),
          (average n fun x => 1 + z * truth (Survives cls ((j :: is).zip (y :: ys)) j x ∧ Open cls A x)) ≤
            (1 + z * weight cls n (without cls A y)) * (1 + z * τ) := by
        intro y ys
        rw [List.zip_cons_cons]
        simp only [survives_cons_open, true_or, true_and, average_add, average_mul, average_const hn, average_open]
        calc 1 + z * (weight cls n (without cls A y) + τ)
            ≤ 1 + z * (weight cls n (without cls A y) + τ) + z * weight cls n (without cls A y) * (z * τ) := le_self_add
          _ = (1 + z * weight cls n (without cls A y)) * (1 + z * τ) := by ring
      calc averageLists n (j :: is).length (fun ys => ∏ i ∈ P, average n fun x =>
              1 + z * truth (Survives cls ((j :: is).zip ys) i x ∧ Open cls A x))
          ≤ average n fun y => averageLists n is.length fun ys =>
              (1 + z * weight cls n (without cls A y)) * (1 + z * τ) * ∏ i ∈ P.erase j, average n fun x =>
                1 + z * truth (Survives cls (is.zip ys) i x ∧ Open cls (without cls A y) x) := by
            apply average_mono
            intro y _
            apply averageLists_mono
            intro ys _ _
            beta_reduce
            rw [← Finset.mul_prod_erase P _ hj,
              Finset.prod_congr rfl fun i hi => hrest y ys i (Finset.ne_of_mem_erase hi).symm]
            exact mul_le_mul_left (hput y ys) _
        _ ≤ average n fun y => (1 + z * weight cls n (without cls A y)) * (1 + z * τ) *
              (G ^ (without cls A y).card * (1 + z * τ) ^ (P.erase j).card) := by
            apply average_mono
            intro y _
            rw [averageLists_mul]
            exact mul_le_mul_right (ih (without cls A y) (P.erase j)) _
        _ = (1 + z * τ) ^ P.card *
              average n fun y => (1 + z * weight cls n (without cls A y)) * G ^ (without cls A y).card := by
            rw [← average_mul, ← Finset.card_erase_add_one hj]
            apply average_congr
            intro y _
            ring
        _ ≤ (1 + z * τ) ^ P.card * G ^ A.card := mul_le_mul_right (clear_and_put hG hn A) _
        _ = G ^ A.card * (1 + z * τ) ^ P.card := mul_comm _ _
    · calc averageLists n (j :: is).length (fun ys => ∏ i ∈ P, average n fun x =>
              1 + z * truth (Survives cls ((j :: is).zip ys) i x ∧ Open cls A x))
          = average n fun y => averageLists n is.length fun ys => ∏ i ∈ P, average n fun x =>
              1 + z * truth (Survives cls (is.zip ys) i x ∧ Open cls (without cls A y) x) := by
            apply average_congr
            intro y _
            apply averageLists_congr
            intro ys _ _
            exact Finset.prod_congr rfl fun i hi => hrest y ys i fun he => hj (he ▸ hi)
        _ ≤ average n fun y => G ^ (without cls A y).card * (1 + z * τ) ^ P.card := average_mono fun y _ => ih _ P
        _ = (1 + z * τ) ^ P.card * average n fun y => G ^ (without cls A y).card := by
            rw [← average_mul]
            apply average_congr
            intro y _
            exact mul_comm _ _
        _ ≤ (1 + z * τ) ^ P.card * G ^ A.card := mul_le_mul_right (clear_le hG hn A) _
        _ = G ^ A.card * (1 + z * τ) ^ P.card := mul_comm _ _

/-- **The exponential moment of the number of survivors.** With G = 1 / (1 - z), each class counts for a factor G, and each item
for the values that have no class. -/
theorem survivors_moment (hA : ∀ x < n, ∀ c, cls x = some c → c ∈ A) (is : List ι) (P : Finset ι) :
    averageLists n is.length (fun ys => ∏ i ∈ P, average n fun x => 1 + z * truth (Survives cls (is.zip ys) i x)) ≤
      G ^ A.card * (1 + z * classless cls n) ^ P.card := by
  refine le_trans (averageLists_congr fun ys _ _ => ?_).le (survivors_moment_open hG hn is A P)
  apply Finset.prod_congr rfl
  intro i _
  apply average_congr
  intro x hx
  have hopen : Open cls A x := hA x hx
  simp only [hopen, and_true]

end Step

end PathOram.Lib
