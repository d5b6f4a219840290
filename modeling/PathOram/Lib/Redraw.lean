/-
Averages over finite ranges, and values that are drawn again.

`redraw n i Φ p` is the average of Φ over the points that differ from p in the value at i, below n; `redrawAll` draws the
values at some indices. A value that is shown and then drawn again has told nothing of the point.

- `redraw_comm`: the order of the draws does not matter.
- `redrawAll_reveal`: **values that are shown and then drawn again** are uniform, and the point that is left is as uniform as
  it was.
- `average_mod`: a uniform number below a multiple of n is uniform modulo n.
-/
import Mathlib.Data.ENNReal.Inv
import Mathlib.Algebra.BigOperators.Fin
import Mathlib.Algebra.BigOperators.Intervals
import Mathlib.Data.Bool.Count
import Mathlib.Tactic

namespace PathOram.Lib

open scoped ENNReal

open Classical in
/-- one for what is true, zero for what is false -/
noncomputable def truth (p : Prop) : ℝ≥0∞ := if p then 1 else 0

@[simp] theorem truth_true : truth True = 1 := if_pos trivial

@[simp] theorem truth_false : truth False = 0 := if_neg id

theorem truth_add_not (p : Prop) : truth p + truth (¬ p) = 1 := by
  by_cases h : p <;> simp [h]

theorem truth_mono {p q : Prop} (h : p → q) : truth p ≤ truth q := by
  by_cases hp : p
  · simp [hp, h hp]
  · simp [hp]

theorem truth_or_of_not_and {p q : Prop} (h : ¬ (p ∧ q)) : truth (p ∨ q) = truth p + truth q := by
  by_cases hp : p
  · have hq : ¬ q := fun hq => h ⟨hp, hq⟩
    simp [hp, hq]
  · simp [hp]

theorem sum_truth {α : Type} (s : Finset α) (p : α → Prop) [DecidablePred p] :
    ∑ x ∈ s, truth (p x) = ((s.filter p).card : ℝ≥0∞) := by
  rw [Finset.card_filter]
  push_cast
  apply Finset.sum_congr rfl
  intro x _
  by_cases hx : p x <;> simp [hx]

/-- the average of a function over the numbers below n -/
noncomputable def average (n : ℕ) (f : ℕ → ℝ≥0∞) : ℝ≥0∞ := ∑ x ∈ Finset.range n, (n : ℝ≥0∞)⁻¹ * f x

section Average

variable {n : ℕ} {f g : ℕ → ℝ≥0∞}

theorem average_const (hn : 0 < n) (c : ℝ≥0∞) : average n (fun _ => c) = c := by
  have hinv : (n : ℝ≥0∞) * (n : ℝ≥0∞)⁻¹ = 1 := ENNReal.mul_inv_cancel (by simpa using hn.ne') (by simp)
  rw [average, Finset.sum_const, Finset.card_range, nsmul_eq_mul, ← mul_assoc, hinv, one_mul]

theorem average_congr (h : ∀ x < n, f x = g x) : average n f = average n g :=
  Finset.sum_congr rfl fun x hx => by rw [h x (Finset.mem_range.1 hx)]

theorem average_mul (c : ℝ≥0∞) : average n (fun x => c * f x) = c * average n f := by
  rw [average, average, Finset.mul_sum]
  exact Finset.sum_congr rfl fun x _ => by ring

theorem average_add : average n (fun x => f x + g x) = average n f + average n g := by
  simp only [average, mul_add]
  exact Finset.sum_add_distrib

theorem average_mono (h : ∀ x < n, f x ≤ g x) : average n f ≤ average n g :=
  Finset.sum_le_sum fun x hx => by
    have hfg := h x (Finset.mem_range.1 hx)
    gcongr

theorem average_sum {ι : Type} (s : Finset ι) (f : ι → ℕ → ℝ≥0∞) :
    average n (fun x => ∑ i ∈ s, f i x) = ∑ i ∈ s, average n (f i) := by
  simp only [average, Finset.mul_sum]
  exact Finset.sum_comm

theorem average_comm (f : ℕ → ℕ → ℝ≥0∞) :
    average n (fun x => average n (f x)) = average n fun y => average n fun x => f x y := by
  simp only [average, Finset.mul_sum]
  exact Finset.sum_comm

theorem inv_mul_cast {q : ℕ} (hq : 0 < q) : ((n * q : ℕ) : ℝ≥0∞)⁻¹ * q = (n : ℝ≥0∞)⁻¹ := by
  rw [Nat.cast_mul, ENNReal.mul_inv (Or.inr (by simp)) (Or.inl (by simp)), mul_assoc,
    ENNReal.inv_mul_cancel (by simpa using hq.ne') (by simp), mul_one]

/-- **A uniform number below a multiple of n is uniform modulo n.** -/
theorem average_mod {q : ℕ} (hq : 0 < q) (f : ℕ → ℝ≥0∞) :
    average (n * q) (fun x => f (x % n)) = average n f := by
  have hsum : ∀ q, ∑ x ∈ Finset.range (n * q), f (x % n) = q * ∑ x ∈ Finset.range n, f x := by
    intro q
    induction q with
    | zero => simp
    | succ q ih =>
      rw [Nat.mul_succ, Finset.sum_range_add, ih]
      have hlast : ∑ x ∈ Finset.range n, f ((n * q + x) % n) = ∑ x ∈ Finset.range n, f x := by
        apply Finset.sum_congr rfl
        intro x hx
        rw [Nat.mul_add_mod, Nat.mod_eq_of_lt (Finset.mem_range.1 hx)]
      rw [hlast]
      push_cast
      ring
  rw [average, average, ← Finset.mul_sum, ← Finset.mul_sum, hsum, ← mul_assoc, inv_mul_cast hq]

/-- **The quotient of a uniform number** by q is uniform. -/
theorem average_div {q : ℕ} (hq : 0 < q) (f : ℕ → ℝ≥0∞) :
    average (n * q) (fun x => f (x / q)) = average n f := by
  have hsum : ∀ n, ∑ x ∈ Finset.range (n * q), f (x / q) = q * ∑ x ∈ Finset.range n, f x := by
    intro n
    induction n with
    | zero => simp
    | succ n ih =>
      rw [Nat.succ_mul, Finset.sum_range_add, ih, Finset.sum_range_succ, mul_add]
      have hlast : ∀ x ∈ Finset.range q, f ((n * q + x) / q) = f n := by
        intro x hx
        rw [mul_comm, Nat.mul_add_div hq, Nat.div_eq_of_lt (Finset.mem_range.1 hx), add_zero]
      rw [Finset.sum_congr rfl hlast, Finset.sum_const, Finset.card_range, nsmul_eq_mul]
  rw [average, average, ← Finset.mul_sum, ← Finset.mul_sum, hsum, ← mul_assoc, inv_mul_cast hq]

end Average

/-! ## Redrawing -/

section Redraw

variable {ι : Type} [DecidableEq ι] (n : ℕ)

/-- the value at i is drawn again -/
noncomputable def redraw (i : ι) (Φ : (ι → ℕ) → ℝ≥0∞) (p : ι → ℕ) : ℝ≥0∞ :=
  average n fun x => Φ (Function.update p i x)

/-- the values at some indices are drawn again -/
noncomputable def redrawAll : List ι → ((ι → ℕ) → ℝ≥0∞) → (ι → ℕ) → ℝ≥0∞
  | [], Φ => Φ
  | i :: is, Φ => redraw n i (redrawAll is Φ)

variable {n}

theorem redraw_comm {i j : ι} (h : i ≠ j) (Φ : (ι → ℕ) → ℝ≥0∞) :
    redraw n i (redraw n j Φ) = redraw n j (redraw n i Φ) := by
  funext p
  calc redraw n i (redraw n j Φ) p
      = average n fun y => average n fun x => Φ (Function.update (Function.update p i x) j y) := average_comm _
    _ = redraw n j (redraw n i Φ) p := by
        apply average_congr
        intro y _
        apply average_congr
        intro x _
        rw [Function.update_comm h]

theorem redraw_redrawAll {i : ι} {is : List ι} (h : i ∉ is) (Φ : (ι → ℕ) → ℝ≥0∞) :
    redraw n i (redrawAll n is Φ) = redrawAll n is (redraw n i Φ) := by
  induction is with
  | nil => rfl
  | cons j is ih =>
    rw [List.mem_cons, not_or] at h
    rw [redrawAll, redraw_comm h.1, ih h.2, redrawAll]

/-- a value that is not drawn -/
theorem redrawAll_shown_of_notMem {is : List ι} {i : ι} (h : i ∉ is) (G : ℕ → (ι → ℕ) → ℝ≥0∞) :
    redrawAll n is (fun p => G (p i) p) = fun p => redrawAll n is (G (p i)) p := by
  induction is with
  | nil => rfl
  | cons j is ih =>
    rw [List.mem_cons, not_or] at h
    funext p
    rw [redrawAll, ih h.2, redraw]
    simp only [Function.update_of_ne h.1]
    rfl

theorem redrawAll_const (hn : 0 < n) (is : List ι) (c : ℝ≥0∞) (p : ι → ℕ) : redrawAll n is (fun _ => c) p = c := by
  induction is generalizing p with
  | nil => rfl
  | cons i is ih =>
    calc redrawAll n (i :: is) (fun _ => c) p = average n fun x => redrawAll n is (fun _ => c) (Function.update p i x) := rfl
      _ = average n fun _ => c := average_congr fun x _ => ih _
      _ = c := average_const hn c

theorem redrawAll_mono {is : List ι} {Φ Ψ : (ι → ℕ) → ℝ≥0∞} (h : ∀ p, Φ p ≤ Ψ p) (p : ι → ℕ) :
    redrawAll n is Φ p ≤ redrawAll n is Ψ p := by
  induction is generalizing p with
  | nil => exact h p
  | cons i is ih => exact average_mono fun x _ => ih _

theorem redrawAll_add (is : List ι) (Φ Ψ : (ι → ℕ) → ℝ≥0∞) (p : ι → ℕ) :
    redrawAll n is (fun q => Φ q + Ψ q) p = redrawAll n is Φ p + redrawAll n is Ψ p := by
  induction is generalizing p with
  | nil => rfl
  | cons i is ih => simp only [redrawAll, redraw, ih, average_add]

theorem redrawAll_mul (is : List ι) (c : ℝ≥0∞) (Φ : (ι → ℕ) → ℝ≥0∞) (p : ι → ℕ) :
    redrawAll n is (fun q => c * Φ q) p = c * redrawAll n is Φ p := by
  induction is generalizing p with
  | nil => rfl
  | cons i is ih => simp only [redrawAll, redraw, ih, average_mul]

theorem redrawAll_sum {α : Type} (is : List ι) (s : Finset α) (Φ : α → (ι → ℕ) → ℝ≥0∞) (p : ι → ℕ) :
    redrawAll n is (fun q => ∑ a ∈ s, Φ a q) p = ∑ a ∈ s, redrawAll n is (Φ a) p := by
  induction is generalizing p with
  | nil => rfl
  | cons i is ih => simp only [redrawAll, redraw, ih, average_sum]

/-- **Values that are drawn are independent.** -/
theorem redrawAll_prod (hn : 0 < n) {is : List ι} (hnodup : is.Nodup) {s : Finset ι} (hs : ∀ i ∈ s, i ∈ is) (f : ι → ℕ → ℝ≥0∞)
    (p : ι → ℕ) : redrawAll n is (fun q => ∏ i ∈ s, f i (q i)) p = ∏ i ∈ s, average n (f i) := by
  have hgeneral : ∀ (s : Finset ι) (p : ι → ℕ), redrawAll n is (fun q => ∏ i ∈ s, f i (q i)) p =
      ∏ i ∈ s, if i ∈ is then average n (f i) else f i (p i) := by
    clear hs
    induction is with
    | nil =>
      intro s p
      simp [redrawAll]
    | cons j is ih =>
      intro s p
      rw [List.nodup_cons] at hnodup
      have hlater : ∀ x, (∏ i ∈ s.erase j, if i ∈ is then average n (f i) else f i (Function.update p j x i)) =
          ∏ i ∈ s.erase j, if i ∈ j :: is then average n (f i) else f i (p i) := by
        intro x
        apply Finset.prod_congr rfl
        intro i hi
        have hne := Finset.ne_of_mem_erase hi
        rw [Function.update_of_ne hne]
        simp only [List.mem_cons, hne, false_or]
      rw [redrawAll, redraw]
      simp only [ih hnodup.2]
      by_cases hj : j ∈ s
      · calc (average n fun x => ∏ i ∈ s, if i ∈ is then average n (f i) else f i (Function.update p j x i))
            = average n fun x => (∏ i ∈ s.erase j, if i ∈ j :: is then average n (f i) else f i (p i)) * f j x := by
              apply average_congr
              intro x _
              rw [← Finset.mul_prod_erase s _ hj, hlater, if_neg hnodup.1, Function.update_self, mul_comm]
          _ = ∏ i ∈ s, if i ∈ j :: is then average n (f i) else f i (p i) := by
              rw [average_mul, ← Finset.mul_prod_erase s _ hj, if_pos List.mem_cons_self, mul_comm]
      · rw [Finset.erase_eq_of_notMem hj] at hlater
        simp only [hlater]
        exact average_const hn _
  rw [hgeneral]
  exact Finset.prod_congr rfl fun i hi => if_pos (hs i hi)

/-- a value that is shown and drawn again -/
theorem redrawAll_shown_one {all : List ι} {i : ι} (hi : i ∈ all) (G : ℕ → (ι → ℕ) → ℝ≥0∞) :
    redrawAll n all (fun p => redraw n i (G (p i)) p) = fun p => average n fun x => redrawAll n all (G x) p := by
  induction all with
  | nil => exact absurd hi List.not_mem_nil
  | cons j all ih =>
    by_cases hall : i ∈ all
    · funext p
      rw [redrawAll, ih hall]
      exact average_comm _
    · obtain rfl : i = j := (List.mem_cons.1 hi).resolve_right hall
      have hlater : ∀ x, redrawAll n all (redraw n i (G x)) = redraw n i (redrawAll n all (G x)) := fun x =>
        (redraw_redrawAll hall (G x)).symm
      funext p
      rw [redrawAll, redrawAll_shown_of_notMem hall fun x => redraw n i (G x)]
      simp only [hlater]
      apply average_congr
      intro x _
      simp only [Function.update_self, redraw, Function.update_idem]
      rfl

variable (n) in
/-- the average over k values in turn -/
noncomputable def averageLists : ℕ → (List ℕ → ℝ≥0∞) → ℝ≥0∞
  | 0, f => f []
  | k + 1, f => average n fun x => averageLists k fun xs => f (x :: xs)

variable (n) in
/-- the values at some indices in turn, each drawn again when it has been shown -/
noncomputable def reveal : List ι → (List ℕ → (ι → ℕ) → ℝ≥0∞) → (ι → ℕ) → ℝ≥0∞
  | [], F, p => F [] p
  | i :: is, F, p => redraw n i (reveal is fun xs => F (p i :: xs)) p

/-- **Values that are shown and then drawn again** are uniform, and say nothing of the point that is left. -/
theorem redrawAll_reveal {all is : List ι} (hsub : ∀ i ∈ is, i ∈ all) (F : List ℕ → (ι → ℕ) → ℝ≥0∞) (p : ι → ℕ) :
    redrawAll n all (reveal n is F) p = averageLists n is.length fun xs => redrawAll n all (F xs) p := by
  induction is generalizing F with
  | nil => rfl
  | cons i is ih =>
    calc redrawAll n all (reveal n (i :: is) F) p
        = average n fun x => redrawAll n all (reveal n is fun xs => F (x :: xs)) p :=
          congrFun (redrawAll_shown_one (hsub i List.mem_cons_self) fun x => reveal n is fun xs => F (x :: xs)) p
      _ = averageLists n (i :: is).length fun xs => redrawAll n all (F xs) p := by
          apply average_congr
          intro x _
          exact ih (fun j hj => hsub j (List.mem_cons_of_mem _ hj)) fun xs => F (x :: xs)

/-- for each index whether it is a new one -/
def news : List ι → List ι → List Bool
  | _, [] => []
  | before, i :: is => decide (i ∉ before) :: news (i :: before) is

/-- the elements of a list at the places with a mark -/
def marked (mark : Bool) : List Bool → List ℕ → List ℕ
  | b :: marks, x :: xs => if b = mark then x :: marked mark marks xs else marked mark marks xs
  | _, _ => []

theorem length_news (before is : List ι) : (news before is).length = is.length := by
  induction is generalizing before with
  | nil => rfl
  | cons i is ih => rw [news, List.length_cons, ih, List.length_cons]

theorem count_news (before is : List ι) : (news before is).count true = (is.toFinset \ before.toFinset).card := by
  induction is generalizing before with
  | nil => simp [news]
  | cons i is ih =>
    have hrest : is.toFinset \ (i :: before).toFinset = (is.toFinset \ before.toFinset).erase i := by
      rw [List.toFinset_cons, Finset.sdiff_insert]
    rw [news, List.count_cons, ih, hrest, List.toFinset_cons]
    by_cases hi : i ∈ before
    · have hnew : insert i is.toFinset \ before.toFinset = is.toFinset \ before.toFinset :=
        Finset.insert_sdiff_of_mem _ (List.mem_toFinset.2 hi)
      simp [hi, hnew]
    · have hnew : insert i is.toFinset \ before.toFinset = insert i (is.toFinset \ before.toFinset) :=
        Finset.insert_sdiff_of_notMem _ fun h => hi (List.mem_toFinset.1 h)
      have hcard : (insert i (is.toFinset \ before.toFinset)).card = ((is.toFinset \ before.toFinset).erase i).card + 1 := by
        rw [← Finset.card_erase_add_one (Finset.mem_insert_self i _), Finset.erase_insert_eq_erase]
      simp [hi, hnew, hcard]

/-- the values that are shown first are those of the point -/
theorem reveal_congr (before : List ι) {is : List ι} {F F' : List ℕ → (ι → ℕ) → ℝ≥0∞} {p : ι → ℕ}
    (h : ∀ xs q, xs.length = is.length →
      (∀ x, x ∈ marked true (news before is) xs ↔ ∃ i ∈ is, i ∉ before ∧ p i = x) → F xs q = F' xs q) :
    reveal n is F p = reveal n is F' p := by
  induction is generalizing before F F' p with
  | nil => exact h [] p rfl (by simp [news, marked])
  | cons i is ih =>
    apply average_congr
    intro y _
    apply ih (i :: before)
    intro xs q hlen hfirst
    refine h (p i :: xs) q (by simp [hlen]) fun x => ?_
    have hlater : (∃ j ∈ is, j ∉ i :: before ∧ Function.update p i y j = x) ↔ ∃ j ∈ is, j ≠ i ∧ j ∉ before ∧ p j = x := by
      constructor
      · rintro ⟨j, hj, hnew, rfl⟩
        rw [List.mem_cons, not_or] at hnew
        exact ⟨j, hj, hnew.1, hnew.2, (Function.update_of_ne hnew.1 _ _).symm⟩
      · rintro ⟨j, hj, hne, hnew, rfl⟩
        exact ⟨j, hj, by simp [hne, hnew], Function.update_of_ne hne _ _⟩
    by_cases hi : i ∈ before
    · have hmarked : marked true (news before (i :: is)) (p i :: xs) = marked true (news (i :: before) is) xs := by
        simp [news, marked, hi]
      rw [hmarked, hfirst, hlater]
      constructor
      · rintro ⟨j, hj, -, hnew, rfl⟩
        exact ⟨j, List.mem_cons_of_mem _ hj, hnew, rfl⟩
      · rintro ⟨j, hj, hnew, rfl⟩
        have hne : j ≠ i := fun he => hnew (he ▸ hi)
        exact ⟨j, (List.mem_cons.1 hj).resolve_left hne, hne, hnew, rfl⟩
    · have hmarked : marked true (news before (i :: is)) (p i :: xs) = p i :: marked true (news (i :: before) is) xs := by
        simp [news, marked, hi]
      rw [hmarked, List.mem_cons, hfirst, hlater]
      constructor
      · rintro (rfl | ⟨j, hj, -, hnew, rfl⟩)
        · exact ⟨i, List.mem_cons_self, hi, rfl⟩
        · exact ⟨j, List.mem_cons_of_mem _ hj, hnew, rfl⟩
      · rintro ⟨j, hj, hnew, rfl⟩
        by_cases hne : j = i
        · exact Or.inl (congrArg p hne)
        · exact Or.inr ⟨j, (List.mem_cons.1 hj).resolve_left hne, hne, hnew, rfl⟩

/-- values that are drawn once each -/
theorem redrawAll_eq_averageLists {is : List ι} (hnodup : is.Nodup) (G : List ℕ → ℝ≥0∞) (p : ι → ℕ) :
    redrawAll n is (fun q => G (is.map q)) p = averageLists n is.length G := by
  induction is generalizing G p with
  | nil => rfl
  | cons i is ih =>
    rw [List.nodup_cons] at hnodup
    have hfirst := redrawAll_shown_of_notMem (n := n) hnodup.1 fun x q => G (x :: is.map q)
    apply average_congr
    intro x _
    calc redrawAll n is (fun q => G ((i :: is).map q)) (Function.update p i x)
        = redrawAll n is (fun q => G (Function.update p i x i :: is.map q)) (Function.update p i x) :=
          congrFun hfirst _
      _ = averageLists n is.length fun xs => G (x :: xs) := by
          rw [Function.update_self]
          exact ih hnodup.2 (fun xs => G (x :: xs)) _

/-! ## Lists of values -/

theorem averageLists_congr {k : ℕ} {f g : List ℕ → ℝ≥0∞}
    (h : ∀ xs, xs.length = k → (∀ x ∈ xs, x < n) → f xs = g xs) : averageLists n k f = averageLists n k g := by
  induction k generalizing f g with
  | zero => exact h [] rfl (by simp)
  | succ k ih =>
    apply average_congr
    intro x hx
    apply ih
    intro xs hlen hxs
    exact h (x :: xs) (by simp [hlen]) (by simpa [hx] using hxs)

theorem averageLists_mono {k : ℕ} {f g : List ℕ → ℝ≥0∞}
    (h : ∀ xs, xs.length = k → (∀ x ∈ xs, x < n) → f xs ≤ g xs) : averageLists n k f ≤ averageLists n k g := by
  induction k generalizing f g with
  | zero => exact h [] rfl (by simp)
  | succ k ih =>
    apply average_mono
    intro x hx
    apply ih
    intro xs hlen hxs
    exact h (x :: xs) (by simp [hlen]) (by simpa [hx] using hxs)

theorem averageLists_const (hn : 0 < n) (k : ℕ) (c : ℝ≥0∞) : averageLists n k (fun _ => c) = c := by
  induction k with
  | zero => rfl
  | succ k ih =>
    rw [averageLists, ih]
    exact average_const hn c

theorem averageLists_add (k : ℕ) (f g : List ℕ → ℝ≥0∞) :
    averageLists n k (fun xs => f xs + g xs) = averageLists n k f + averageLists n k g := by
  induction k generalizing f g with
  | zero => rfl
  | succ k ih => simp only [averageLists, ih, average_add]

/-- two functions of which one is what the other lacks of a constant -/
theorem averageLists_add_eq (hn : 0 < n) (k : ℕ) {f g : List ℕ → ℝ≥0∞} {c : ℝ≥0∞} (h : ∀ xs, f xs + g xs = c) :
    averageLists n k f + averageLists n k g = c := by
  rw [← averageLists_add, ← averageLists_const hn k c]
  simp only [h]

theorem averageLists_append (a b : ℕ) (f : List ℕ → ℝ≥0∞) :
    averageLists n (a + b) f = averageLists n a fun xs => averageLists n b fun ys => f (xs ++ ys) := by
  induction a generalizing f with
  | zero => rw [Nat.zero_add]; rfl
  | succ a ih =>
    rw [Nat.add_right_comm]
    apply average_congr
    intro x _
    exact ih _

theorem average_averageLists (k : ℕ) (f : ℕ → List ℕ → ℝ≥0∞) :
    (average n fun x => averageLists n k (f x)) = averageLists n k fun xs => average n fun x => f x xs := by
  induction k generalizing f with
  | zero => rfl
  | succ k ih =>
    calc (average n fun x => averageLists n (k + 1) (f x))
        = average n fun y => average n fun x => averageLists n k fun ys => f x (y :: ys) := average_comm _
      _ = averageLists n (k + 1) fun xs => average n fun x => f x xs := by
          apply average_congr
          intro y _
          exact ih fun x ys => f x (y :: ys)

theorem averageLists_reverse (k : ℕ) (f : List ℕ → ℝ≥0∞) :
    averageLists n k (fun xs => f xs.reverse) = averageLists n k f := by
  induction k generalizing f with
  | zero => rfl
  | succ k ih =>
    calc averageLists n (k + 1) (fun xs => f xs.reverse)
        = average n fun x => averageLists n k fun xs => f (xs.reverse ++ [x]) := by simp only [averageLists, List.reverse_cons]
      _ = average n fun x => averageLists n k fun xs => f (xs ++ [x]) := average_congr fun x _ => ih fun xs => f (xs ++ [x])
      _ = averageLists n k fun xs => average n fun x => f (xs ++ [x]) := average_averageLists k _
      _ = averageLists n (k + 1) f := (averageLists_append k 1 f).symm

/-- **The order of uniform values does not matter**: those with a mark may be drawn first. -/
theorem averageLists_marked (marks : List Bool) (G : List ℕ → List ℕ → ℝ≥0∞) :
    averageLists n marks.length (fun xs => G (marked true marks xs) (marked false marks xs)) =
      averageLists n (marks.count true) fun a => averageLists n (marks.count false) fun b => G a b := by
  induction marks generalizing G with
  | nil => rfl
  | cons mark marks ih =>
    cases mark with
    | true =>
      rw [List.count_cons_self, List.count_cons_of_ne (by decide)]
      apply average_congr
      intro x _
      exact ih fun a b => G (x :: a) b
    | false =>
      calc averageLists n (false :: marks).length (fun xs =>
              G (marked true (false :: marks) xs) (marked false (false :: marks) xs))
          = average n fun x => averageLists n (marks.count true) fun a =>
              averageLists n (marks.count false) fun b => G a (x :: b) := by
            apply average_congr
            intro x _
            exact ih fun a b => G a (x :: b)
        _ = averageLists n (marks.count true) fun a => average n fun x =>
              averageLists n (marks.count false) fun b => G a (x :: b) := average_averageLists _ _
        _ = averageLists n ((false :: marks).count true) fun a =>
              averageLists n ((false :: marks).count false) fun b => G a b := by
            rw [List.count_cons_self, List.count_cons_of_ne (by decide)]
            rfl

theorem averageLists_eq_sum (k : ℕ) (f : List ℕ → ℝ≥0∞) :
    averageLists n k f = ∑ xs : Fin k → Fin n, ((n : ℝ≥0∞) ^ k)⁻¹ * f (List.ofFn fun i => (xs i : ℕ)) := by
  induction k generalizing f with
  | zero => simp [averageLists]
  | succ k ih =>
    have hinv : ((n : ℝ≥0∞) ^ (k + 1))⁻¹ = (n : ℝ≥0∞)⁻¹ * ((n : ℝ≥0∞) ^ k)⁻¹ := by
      rw [pow_succ', ENNReal.mul_inv (Or.inr (by finiteness)) (Or.inl (by finiteness))]
    calc averageLists n (k + 1) f
        = ∑ x : Fin n, (n : ℝ≥0∞)⁻¹ *
            ∑ xs : Fin k → Fin n, ((n : ℝ≥0∞) ^ k)⁻¹ * f ((x : ℕ) :: List.ofFn fun i => (xs i : ℕ)) := by
          rw [averageLists, average, ← Fin.sum_univ_eq_sum_range fun x => (n : ℝ≥0∞)⁻¹ * averageLists n k fun xs => f (x :: xs)]
          simp only [ih]
      _ = ∑ y : Fin n × (Fin k → Fin n),
            ((n : ℝ≥0∞) ^ (k + 1))⁻¹ * f ((y.1 : ℕ) :: List.ofFn fun i => (y.2 i : ℕ)) := by
          simp only [Fintype.sum_prod_type, Finset.mul_sum, hinv, mul_assoc]
      _ = ∑ xs : Fin (k + 1) → Fin n, ((n : ℝ≥0∞) ^ (k + 1))⁻¹ * f (List.ofFn fun i => (xs i : ℕ)) := by
          rw [← (Fin.consEquiv fun _ => Fin n).sum_comp]
          simp [List.ofFn_succ, Fin.consEquiv]

open Classical in
/-- the part of the lists of k numbers below n that have a property -/
noncomputable def share (n k : ℕ) (p : List ℕ → Prop) : ℝ≥0∞ :=
  (Finset.univ.filter fun xs : Fin k → Fin n => p (List.ofFn fun i => (xs i : ℕ))).card / (n : ℝ≥0∞) ^ k

theorem averageLists_truth (k : ℕ) (p : List ℕ → Prop) : averageLists n k (fun xs => truth (p xs)) = share n k p := by
  rw [averageLists_eq_sum, share, ← Finset.mul_sum, mul_comm, ← div_eq_mul_inv]
  simp only [truth, Finset.sum_boole]

/-- a property of one of the lists has a share -/
theorem share_pos {k : ℕ} {p : List ℕ → Prop} {xs : List ℕ} (hlen : xs.length = k) (hlt : ∀ x ∈ xs, x < n) (hp : p xs) :
    0 < share n k p := by
  classical
  subst hlen
  have hmem : (fun i => ⟨xs.get i, hlt _ (xs.get_mem i)⟩ : Fin xs.length → Fin n) ∈
      Finset.univ.filter fun ys : Fin xs.length → Fin n => p (List.ofFn fun i => (ys i : ℕ)) := by
    rw [Finset.mem_filter]
    exact ⟨Finset.mem_univ _, by simpa only [List.ofFn_get] using hp⟩
  have hcard := Finset.card_pos.2 ⟨_, hmem⟩
  rw [share]
  exact ENNReal.div_pos (by exact_mod_cast hcard.ne') (by finiteness)

/-! ## Different values -/

theorem averageLists_mul (c : ℝ≥0∞) (k : ℕ) (f : List ℕ → ℝ≥0∞) :
    averageLists n k (fun xs => c * f xs) = c * averageLists n k f := by
  induction k generalizing f with
  | zero => rfl
  | succ k ih => simp only [averageLists, ih, average_mul]

theorem averageLists_sum {ι : Type} (s : Finset ι) (k : ℕ) (f : ι → List ℕ → ℝ≥0∞) :
    averageLists n k (fun xs => ∑ i ∈ s, f i xs) = ∑ i ∈ s, averageLists n k (f i) := by
  simp only [averageLists_eq_sum, Finset.mul_sum]
  exact Finset.sum_comm

/-- values that are sent to uniform ones -/
theorem averageLists_map {m : ℕ} {g : ℕ → ℕ} (h : ∀ f : ℕ → ℝ≥0∞, average n (fun x => f (g x)) = average m f) (k : ℕ)
    (f : List ℕ → ℝ≥0∞) : averageLists n k (fun xs => f (xs.map g)) = averageLists m k f := by
  induction k generalizing f with
  | zero => rfl
  | succ k ih =>
    calc averageLists n (k + 1) (fun xs => f (xs.map g))
        = average n fun x => averageLists m k fun xs => f (g x :: xs) := by
          apply average_congr
          intro x _
          exact ih fun xs => f (g x :: xs)
      _ = averageLists m (k + 1) f := h fun x => averageLists m k fun xs => f (x :: xs)

/-- independent values have a property each -/
theorem averageLists_forall (k : ℕ) (p : ℕ → Prop) :
    averageLists n k (fun xs => truth (∀ x ∈ xs, p x)) = (average n fun x => truth (p x)) ^ k := by
  induction k with
  | zero => simp [averageLists]
  | succ k ih =>
    have hcons : ∀ x xs, truth (∀ y ∈ x :: xs, p y) = truth (∀ y ∈ xs, p y) * truth (p x) := by
      intro x xs
      by_cases hx : p x <;> simp [hx]
    calc averageLists n (k + 1) (fun xs => truth (∀ x ∈ xs, p x))
        = average n fun x => averageLists n k fun xs => truth (p x) * truth (∀ y ∈ xs, p y) := by
          simp only [averageLists, hcons, mul_comm]
      _ = average n fun x => (average n fun x => truth (p x)) ^ k * truth (p x) := by
          simp only [averageLists_mul, ih, mul_comm]
      _ = (average n fun x => truth (p x)) ^ (k + 1) := by rw [average_mul, pow_succ]

/-- one value is missed -/
theorem average_ne {y : ℕ} (hy : y < n) : (average n fun x => truth (x ≠ y)) = 1 - (n : ℝ≥0∞)⁻¹ := by
  have heq : (average n fun x => truth (x = y)) = (n : ℝ≥0∞)⁻¹ := by
    simp [average, truth, hy]
  have hsum : (average n fun x => truth (x = y)) + (average n fun x => truth (x ≠ y)) = 1 := by
    rw [← average_add, average_congr fun x _ => truth_add_not (x = y)]
    exact average_const (by omega) 1
  rw [heq] at hsum
  exact ENNReal.eq_sub_of_add_eq' (by simp) ((add_comm _ _).trans hsum)

/-- **The number of different values** that are expected of k uniform ones. -/
theorem averageLists_card_toFinset (k : ℕ) :
    averageLists n k (fun xs => (xs.toFinset.card : ℝ≥0∞)) = n * (1 - (1 - (n : ℝ≥0∞)⁻¹) ^ k) := by
  have hcard : ∀ xs : List ℕ, (∀ x ∈ xs, x < n) → (xs.toFinset.card : ℝ≥0∞) = ∑ y ∈ Finset.range n, truth (y ∈ xs) := by
    intro xs hxs
    have hfilter : (Finset.range n).filter (fun y => y ∈ xs) = xs.toFinset := by
      ext y
      simp only [Finset.mem_filter, Finset.mem_range, List.mem_toFinset, and_iff_right_iff_imp]
      exact hxs y
    rw [← hfilter, Finset.card_filter]
    push_cast
    apply Finset.sum_congr rfl
    intro y _
    by_cases hy : y ∈ xs <;> simp [hy]
  have hmem : ∀ y < n, averageLists n k (fun xs => truth (y ∈ xs)) = 1 - (1 - (n : ℝ≥0∞)⁻¹) ^ k := by
    intro y hy
    have hnot : averageLists n k (fun xs => truth (¬ y ∈ xs)) = (1 - (n : ℝ≥0∞)⁻¹) ^ k := by
      rw [← average_ne hy, ← averageLists_forall]
      congr 1
      funext xs
      congr 1
      simp only [eq_iff_iff]
      exact ⟨fun h x hx he => h (he ▸ hx), fun h hy => h y hy rfl⟩
    have hsum := averageLists_add_eq (n := n) (by omega) k fun xs => truth_add_not (y ∈ xs)
    rw [hnot] at hsum
    exact ENNReal.eq_sub_of_add_eq' (by simp) hsum
  calc averageLists n k (fun xs => (xs.toFinset.card : ℝ≥0∞))
      = averageLists n k fun xs => ∑ y ∈ Finset.range n, truth (y ∈ xs) :=
        averageLists_congr fun xs _ hxs => hcard xs hxs
    _ = ∑ y ∈ Finset.range n, averageLists n k fun xs => truth (y ∈ xs) := averageLists_sum _ k _
    _ = ∑ _y ∈ Finset.range n, (1 - (1 - (n : ℝ≥0∞)⁻¹) ^ k) :=
        Finset.sum_congr rfl fun y hy => hmem y (Finset.mem_range.1 hy)
    _ = n * (1 - (1 - (n : ℝ≥0∞)⁻¹) ^ k) := by rw [Finset.sum_const, Finset.card_range, nsmul_eq_mul]

end Redraw

end PathOram.Lib
