/-
Programs that draw, in the shadow of an abstract one.

`Follows` compares a program with an abstract one on what is seen of its state. Here the abstract program has states of its own,
which a relation connects to those of the program: they may remember what the program has forgotten.

- `Shadows`: whatever the outcomes are worth, the expectation is at most that of the abstract program; an exception is worth c
  at most.
- `Shadows.bind`: **the abstract programs are composed.**
- `Shadows.of_triple`: a program that keeps the relation, and does not throw, does nothing.
-/
import PathOram.Lib.Draws

namespace PathOram.Lib

open scoped ENNReal

variable {ω κ ε σ α β V : Type} {S : Source ω κ} {M : ℕ} [NeZero M]

variable (S M) in
/-- from states that R relates the program leads to states that R' relates, and what its outcomes are worth on average is at
most what the abstract program T says -/
structure Shadows (c : ℝ≥0∞) (R : σ → V → Prop) (m : Prog ω ε σ α) (R' : σ → V → Prop) (T : (V → ℝ≥0∞) → V → ℝ≥0∞) :
    Prop where
  samples : Samples S m
  le : ∀ (φ : Except ε α → κ → σ → ℝ≥0∞) (Φ : V → ℝ≥0∞) (k : κ) (s : σ) (v : V), R s v →
    (∀ e k' s', φ (.error e) k' s' ≤ c) → (∀ a k' s' v', R' s' v' → φ (.ok a) k' s' ≤ Φ v') → expect S M m k s φ ≤ T Φ v

theorem mean_const_add (c : ℝ≥0∞) (F : (ℕ → ℕ) → ℝ≥0∞) : mean M (fun t => c + F t) = c + mean M F :=
  calc mean M (fun t => c + F t) = mean M (fun _ => c) + mean M F := MeasureTheory.lintegral_add_left measurable_const _
    _ = c + mean M F := by rw [mean_const]

namespace Shadows

variable {c : ℝ≥0∞} {R R' R'' : σ → V → Prop} {m : Prog ω ε σ α} {T T' : (V → ℝ≥0∞) → V → ℝ≥0∞}

/-- a program that keeps the relation and does not throw -/
theorem of_triple (hm : Samples S m) (h : ∀ v, Triple (fun s => R s v) m (fun _ s => R' s v) fun _ _ => False) :
    Shadows S M c R m R' fun Φ => Φ where
  samples := hm
  le φ Φ k s v hs herr hok := by
    have hmono : expect S M m k s φ ≤ expect S M m k s fun _ _ _ => Φ v :=
      expect_mono_of_triple (h v) hs (fun a k' s' hs' => hok a k' s' v hs') fun e k' s' he => he.elim
    exact hmono.trans_eq (expect_const _)

theorem pure (a : α) : Shadows S M c R (pure a : Prog ω ε σ α) R fun Φ => Φ :=
  of_triple (Samples.pure a) fun _ => Triple.pure fun _ hs => hs

/-- **The abstract programs are composed.** -/
theorem bind (hm : Shadows S M c R m R' T) {f : α → Prog ω ε σ β} (hf : ∀ a, Shadows S M c R' (f a) R'' T') :
    Shadows S M c R (m >>= f) R'' fun Φ => T (T' Φ) where
  samples := hm.samples.bind fun a => (hf a).samples
  le φ Φ k s v hs herr hok := by
    rw [expect_bind hm.samples]
    apply hm.le _ (T' Φ) k s v hs
    · exact herr
    · intro a k' s' v' hs'
      exact (hf a).le φ Φ k' s' v' hs' herr hok

theorem ite {b : Prop} [Decidable b] {m' : Prog ω ε σ α} (ht : b → Shadows S M c R m R' T)
    (hf : ¬ b → Shadows S M c R m' R' T) : Shadows S M c R (if b then m else m') R' T := by
  split_ifs with h
  · exact ht h
  · exact hf h

end Shadows

end PathOram.Lib
