/-
Accesses that show a value and draw it again, with a log of what was shown.

An access shows the value of an index and draws a new one. The log keeps the values, and what was shown, the last first. What
is worth something in the log may end the accesses, at the price of e each time.

- `rehearse`: what a list of accesses is worth on average.
- `redrawAll_rehearse`: **from uniform values** the log is one of uniform values at every access, so the worth of the accesses
  is computed access by access.
- `redrawAll_rehearse_le`: the union bound.
-/
import PathOram.Lib.Redraw

namespace PathOram.Lib

open scoped ENNReal

/-- the values of the indices, and the indices that were accessed with what they showed -/
structure Log (ι : Type) where
  pos : ι → ℕ
  reads : List (ι × ℕ)

section

variable {ι : Type} [DecidableEq ι]

/-- an access shows a value, and draws it again -/
def Log.access (l : Log ι) (i : ι) (x : ℕ) : Log ι := ⟨Function.update l.pos i x, (i, l.pos i) :: l.reads⟩

variable (n : ℕ) (e : ℝ≥0∞) (p : Log ι → Prop)

/-- what accesses are worth on average: Φ at the end, and e at each access that begins with a log that has the property p -/
noncomputable def rehearse : List ι → (Log ι → ℝ≥0∞) → Log ι → ℝ≥0∞
  | [], Φ, l => Φ l
  | i :: is, Φ, l => e * truth (p l) + average n fun x => rehearse is Φ (l.access i x)

theorem rehearse_append (is js : List ι) (Φ : Log ι → ℝ≥0∞) (l : Log ι) :
    rehearse n e p (is ++ js) Φ l = rehearse n e p is (rehearse n e p js Φ) l := by
  induction is generalizing l with
  | nil => rfl
  | cons i is ih =>
    rw [List.cons_append, rehearse, rehearse]
    simp only [ih]

/-- what a log is worth after accesses, if all that it has seen is uniform -/
noncomputable def afterwards (all is : List ι) (Φ : Log ι → ℝ≥0∞) (q : ι → ℕ) : ℝ≥0∞ :=
  averageLists n is.length fun xs => redrawAll n all (fun pos => Φ ⟨pos, (is.zip xs).reverse⟩) q

variable {n e p} {all : List ι}

theorem afterwards_add (is : List ι) (Φ Ψ : Log ι → ℝ≥0∞) (q : ι → ℕ) :
    afterwards n all is (fun l => Φ l + Ψ l) q = afterwards n all is Φ q + afterwards n all is Ψ q := by
  simp only [afterwards, redrawAll_add, averageLists_add]

theorem afterwards_mul (c : ℝ≥0∞) (is : List ι) (Φ : Log ι → ℝ≥0∞) (q : ι → ℕ) :
    afterwards n all is (fun l => c * Φ l) q = c * afterwards n all is Φ q := by
  simp only [afterwards, redrawAll_mul, averageLists_mul]

/-- **One more access** of uniform values leaves uniform values. -/
theorem afterwards_access {i : ι} (hi : i ∈ all) (is : List ι) (Φ : Log ι → ℝ≥0∞) (q : ι → ℕ) :
    afterwards n all is (fun l => average n fun x => Φ (l.access i x)) q = afterwards n all (is ++ [i]) Φ q := by
  rw [afterwards, afterwards, List.length_append, averageLists_append]
  apply averageLists_congr
  intro xs hlen _
  have hshown := redrawAll_shown_one (n := n) hi fun x pos => Φ ⟨pos, (i, x) :: (is.zip xs).reverse⟩
  calc redrawAll n all (fun pos => average n fun x => Φ (Log.access ⟨pos, (is.zip xs).reverse⟩ i x)) q
      = average n fun x => redrawAll n all (fun pos => Φ ⟨pos, (i, x) :: (is.zip xs).reverse⟩) q := congrFun hshown q
    _ = averageLists n [i].length fun ys => redrawAll n all (fun pos => Φ ⟨pos, ((is ++ [i]).zip (xs ++ ys)).reverse⟩) q := by
        apply average_congr
        intro x _
        simp [averageLists, List.zip_append hlen.symm]

/-- **The worth of accesses to uniform values**, access by access. -/
theorem redrawAll_rehearse {is : List ι} (hall : ∀ i ∈ is, i ∈ all) (Φ : Log ι → ℝ≥0∞) (q : ι → ℕ) :
    redrawAll n all (fun pos => rehearse n e p is Φ ⟨pos, []⟩) q =
      ∑ j ∈ Finset.range is.length, e * afterwards n all (is.take j) (fun l => truth (p l)) q + afterwards n all is Φ q := by
  induction is using List.reverseRecOn generalizing Φ with
  | nil => simp [rehearse, afterwards, averageLists]
  | append_singleton is i ih =>
    have hstep : rehearse n e p [i] Φ = fun l => e * truth (p l) + average n fun x => Φ (l.access i x) := rfl
    have htake : ∀ j ∈ Finset.range is.length, e * afterwards n all (is.take j) (fun l => truth (p l)) q =
        e * afterwards n all ((is ++ [i]).take j) (fun l => truth (p l)) q := by
      intro j hj
      rw [List.take_append_of_le_length (Finset.mem_range.1 hj).le]
    calc redrawAll n all (fun pos => rehearse n e p (is ++ [i]) Φ ⟨pos, []⟩) q
        = redrawAll n all (fun pos => rehearse n e p is (rehearse n e p [i] Φ) ⟨pos, []⟩) q := by
          simp only [rehearse_append]
      _ = ∑ j ∈ Finset.range is.length, e * afterwards n all (is.take j) (fun l => truth (p l)) q +
            afterwards n all is (rehearse n e p [i] Φ) q := ih (fun k hk => hall k (List.mem_append_left _ hk)) _
      _ = ∑ j ∈ Finset.range is.length, e * afterwards n all ((is ++ [i]).take j) (fun l => truth (p l)) q +
            (e * afterwards n all is (fun l => truth (p l)) q + afterwards n all (is ++ [i]) Φ q) := by
          rw [Finset.sum_congr rfl htake, hstep, afterwards_add, afterwards_mul,
            afterwards_access (hall i (List.mem_append_right _ (List.mem_singleton_self i)))]
      _ = _ := by
          rw [List.length_append, List.length_singleton, Finset.sum_range_succ, List.take_left, add_assoc]

/-- **The union bound** for accesses. -/
theorem redrawAll_rehearse_le {is : List ι} (hall : ∀ i ∈ is, i ∈ all) {a : ℝ≥0∞} {q : ι → ℕ}
    (ha : ∀ is, afterwards n all is (fun l => truth (p l)) q ≤ a) (Φ : Log ι → ℝ≥0∞) :
    redrawAll n all (fun pos => rehearse n e p is Φ ⟨pos, []⟩) q ≤ is.length * (e * a) + afterwards n all is Φ q := by
  calc redrawAll n all (fun pos => rehearse n e p is Φ ⟨pos, []⟩) q
      = ∑ j ∈ Finset.range is.length, e * afterwards n all (is.take j) (fun l => truth (p l)) q + afterwards n all is Φ q :=
        redrawAll_rehearse hall Φ q
    _ ≤ ∑ _j ∈ Finset.range is.length, e * a + afterwards n all is Φ q := by
        gcongr
        exact ha _
    _ = is.length * (e * a) + afterwards n all is Φ q := by
        rw [Finset.sum_const, Finset.card_range, nsmul_eq_mul]

end

end PathOram.Lib
