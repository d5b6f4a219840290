/-
Programs that draw random numbers, and what to expect of them.

The world of a program is a tape of draws and a rest. `Samples S m` says that the program m uses the tape only to take its
next draw, so it reads a prefix of the tape and leaves what follows it.

- `tapes M`: the law of a tape of independent uniform draws below M, and `mean` the mean of a function of the tape.
- `Samples.fresh`: **what follows a program has a fresh tape**, whatever the program has drawn.
- `expect`: the expectation of what a program leaves. `expect_bind`: **it is computed step by step.**
- `expect_mono_of_triple`, `expect_congr_of_triple`: only the outcomes that a triple allows count.
- `chance_eq_expect`: the probability of a property of the outcome is the expectation of its indicator.
- `Follows`: a program whose state, as far as it is seen, is distributed as an abstract program says, up to what throws.
  `Follows.bind` composes such programs, and `Follows.chance_le` bounds probabilities.
-/
import PathOram.Lib.Prog
import PathOram.Lib.Redraw
import Mathlib.Probability.ProductMeasure
import Mathlib.Probability.Distributions.Uniform

namespace PathOram.Lib

open MeasureTheory
open scoped ENNReal

/-! ## Tapes -/

section Tape

variable (M : ℕ) [NeZero M]

/-- independent uniform draws below M -/
noncomputable def tapes : Measure (ℕ → Fin M) := Measure.infinitePi fun _ => (PMF.uniformOfFintype (Fin M)).toMeasure

instance : IsProbabilityMeasure (tapes M) := inferInstanceAs (IsProbabilityMeasure (Measure.infinitePi _))

/-- a tape with a draw put in front -/
def tapeCons {α : Type} (x : α) (t : ℕ → α) : ℕ → α
  | 0 => x
  | n + 1 => t n

omit [NeZero M] in
variable {M} in
theorem measurableEmbedding_tapeCons (x : Fin M) : MeasurableEmbedding (tapeCons x) := by
  have hcons : Measurable (tapeCons x : (ℕ → Fin M) → ℕ → Fin M) := by
    refine measurable_pi_lambda _ fun n => ?_
    cases n with
    | zero => exact measurable_const
    | succ n => exact measurable_pi_apply n
  have htail : Measurable fun (t : ℕ → Fin M) n => t (n + 1) := measurable_pi_lambda _ fun n => measurable_pi_apply (n + 1)
  have hrange : Set.range (tapeCons x) = Set.preimage (fun t : ℕ → Fin M => t 0) {x} := by
    ext t
    constructor
    · rintro ⟨u, rfl⟩
      rfl
    · intro ht
      refine ⟨fun n => t (n + 1), funext fun n => ?_⟩
      cases n with
      | zero => exact (show t 0 = x from ht).symm
      | succ n => rfl
  refine MeasurableEmbedding.of_measurable_inverse hcons ?_ htail fun _ => rfl
  rw [hrange]
  exact measurable_pi_apply 0 (measurableSet_singleton x)

/-- the draws after the first one -/
noncomputable def later (s : Finset ℕ) : Finset ℕ := s.preimage Nat.succ Nat.succ_injective.injOn

theorem mem_later {s : Finset ℕ} {n : ℕ} : n ∈ later s ↔ n + 1 ∈ s := Finset.mem_preimage

theorem preimage_tapeCons {α : Type} (x : α) (s : Finset ℕ) (t : ℕ → Set α) :
    Set.preimage (tapeCons x) (Set.pi s t) = {_u | 0 ∈ s → x ∈ t 0} ∩ Set.pi (later s) fun n => t (n + 1) := by
  ext u
  constructor
  · intro h
    exact ⟨fun h0 => h 0 h0, fun n hn => h (n + 1) (mem_later.1 hn)⟩
  · rintro ⟨h0, h⟩ i hi
    cases i with
    | zero => exact h0 hi
    | succ n => exact h n (mem_later.2 hi)

theorem prod_later (s : Finset ℕ) (f : ℕ → ℝ≥0∞) :
    ∏ i ∈ s, f i = (if 0 ∈ s then f 0 else 1) * ∏ n ∈ later s, f (n + 1) := by
  have hrest : ∏ n ∈ later s, f (n + 1) = ∏ i ∈ s.erase 0, f i := by
    rw [← Finset.prod_image (s := later s) (g := Nat.succ) (f := f) Nat.succ_injective.injOn]
    congr 1
    ext i
    cases i with
    | zero => simp
    | succ n => simp [mem_later]
  rw [hrest]
  split_ifs with h
  · rw [Finset.mul_prod_erase s f h]
  · rw [one_mul, Finset.erase_eq_of_notMem h]

variable {M}

/-- a tape is its first draw and a tape of its own -/
theorem tapes_eq : tapes M = ∑ x : Fin M, (M : ℝ≥0∞)⁻¹ • (tapes M).map (tapeCons x) := by
  symm
  apply Measure.eq_infinitePi
  intro s t ht
  set μ := (PMF.uniformOfFintype (Fin M)).toMeasure with hμ
  have hrest : tapes M (Set.pi (later s) fun n => t (n + 1)) = ∏ n ∈ later s, μ (t (n + 1)) :=
    Measure.infinitePi_pi _ fun n _ => ht (n + 1)
  have hterm : ∀ x, (tapes M).map (tapeCons x) (Set.pi s t) =
      (if 0 ∈ s then (t 0).indicator 1 x else 1) * ∏ n ∈ later s, μ (t (n + 1)) := by
    intro x
    rw [(measurableEmbedding_tapeCons x).map_apply, preimage_tapeCons, ← hrest]
    by_cases h0 : 0 ∈ s <;> by_cases hx : x ∈ t 0 <;> simp [h0, hx]
  have hfirst : ∑ x : Fin M, (M : ℝ≥0∞)⁻¹ * (if 0 ∈ s then (t 0).indicator 1 x else 1) =
      if 0 ∈ s then μ (t 0) else 1 := by
    split_ifs with h
    · rw [hμ, PMF.toMeasure_apply_fintype]
      apply Finset.sum_congr rfl
      intro x _
      by_cases hx : x ∈ t 0 <;> simp [hx]
    · rw [← Finset.mul_sum]
      simp [ENNReal.inv_mul_cancel, NeZero.ne M]
  rw [Measure.coe_finsetSum, Finset.sum_apply, prod_later s fun i => μ (t i), ← hfirst, Finset.sum_mul]
  apply Finset.sum_congr rfl
  intro x _
  rw [Measure.smul_apply, hterm, smul_eq_mul, mul_assoc]

variable (M) in
/-- the mean of a function of the tape -/
noncomputable def mean (F : (ℕ → ℕ) → ℝ≥0∞) : ℝ≥0∞ := ∫⁻ t : ℕ → Fin M, F (fun n => t n) ∂tapes M

theorem mean_const (c : ℝ≥0∞) : mean M (fun _ => c) = c := by
  rw [mean, lintegral_const, measure_univ, mul_one]

theorem mean_mono {F G : (ℕ → ℕ) → ℝ≥0∞} (h : ∀ t, F t ≤ G t) : mean M F ≤ mean M G :=
  lintegral_mono fun t => h fun n => t n

/-- the first draw and then the rest -/
theorem mean_tapeCons (F : (ℕ → ℕ) → ℝ≥0∞) :
    mean M F = ∑ x : Fin M, (M : ℝ≥0∞)⁻¹ * mean M fun t => F (tapeCons (x : ℕ) t) := by
  have hcons : ∀ (x : Fin M) (t : ℕ → Fin M),
      (fun n => ((tapeCons x t : ℕ → Fin M) n : ℕ)) = tapeCons (x : ℕ) fun n => (t n : ℕ) := by
    intro x t
    funext n
    cases n with
    | zero => rfl
    | succ n => rfl
  calc mean M F = ∫⁻ t : ℕ → Fin M, F (fun n => t n) ∂∑ x : Fin M, (M : ℝ≥0∞)⁻¹ • (tapes M).map (tapeCons x) := by
        rw [mean, ← tapes_eq]
    _ = ∑ x : Fin M, (M : ℝ≥0∞)⁻¹ * ∫⁻ t : ℕ → Fin M, F (fun n => ((tapeCons x t : ℕ → Fin M) n : ℕ)) ∂tapes M := by
        rw [lintegral_finsetSum_measure]
        apply Finset.sum_congr rfl
        intro x _
        rw [lintegral_smul_measure, (measurableEmbedding_tapeCons x).lintegral_map, smul_eq_mul]
    _ = ∑ x : Fin M, (M : ℝ≥0∞)⁻¹ * mean M fun t => F (tapeCons (x : ℕ) t) := by
        simp only [hcons, mean]

end Tape

/-! ## Programs that draw -/

/-- what follows a result, and what follows an exception -/
def carryOn {ε α κ σ γ : Type} (ok : α → κ → σ → γ) (error : ε → κ → σ → γ) : Except ε α → κ → σ → γ
  | .ok a, k, s => ok a k s
  | .error e, k, s => error e k s

/-- a world is a tape of draws and a rest -/
structure Source (ω κ : Type) where
  make : (ℕ → ℕ) → κ → ω
  rest : ω → κ
  rest_make : ∀ t k, rest (make t k) = k

section Samples

variable {ω κ ε σ τ α β : Type} (S : Source ω κ)

/-- programs that use the tape only to take its next draw -/
inductive Samples : {α : Type} → Prog ω ε σ α → Prop
  | still {α : Type} {m : Prog ω ε σ α} : (∀ k s, ∃ r k' s', ∀ t, m.exec (S.make t k) s = (r, S.make t k', s')) → Samples m
  | draw {f : ω → ℕ × ω} : (∀ t k, f (S.make t k) = (t 0, S.make (fun n => t (n + 1)) k)) → Samples (Prog.world f)
  | bind {α β : Type} {m : Prog ω ε σ α} {f : α → Prog ω ε σ β} :
      Samples m → (∀ a, Samples (f a)) → Samples (m >>= f)

variable {S}

namespace Samples

theorem of_exec {m m' : Prog ω ε σ α} (h : Samples S m) (he : ∀ w s, m'.exec w s = m.exec w s) : Samples S m' := by
  have : m' = m := funext fun p => he p.1 p.2
  rwa [this]

theorem pure (a : α) : Samples S (pure a : Prog ω ε σ α) := still fun k s => ⟨_, k, s, fun _ => rfl⟩

theorem throw (e : ε) : Samples S (throw e : Prog ω ε σ α) := still fun k s => ⟨_, k, s, fun _ => rfl⟩

theorem read : Samples S (Prog.read : Prog ω ε σ σ) := still fun k s => ⟨_, k, s, fun _ => rfl⟩

theorem modify (f : σ → σ) : Samples S (Prog.modify f : Prog ω ε σ Unit) := still fun k s => ⟨_, k, f s, fun _ => rfl⟩

theorem ofExcept (r : Except ε α) : Samples S (Prog.ofExcept r : Prog ω ε σ α) := still fun k s => ⟨r, k, s, fun _ => rfl⟩

theorem ite {c : Prop} [Decidable c] {m m' : Prog ω ε σ α} (ht : c → Samples S m) (hf : ¬ c → Samples S m') :
    Samples S (if c then m else m') := by
  split_ifs with h
  · exact ht h
  · exact hf h

theorem forM {l : List α} {f : α → Prog ω ε σ PUnit} (h : ∀ a, Samples S (f a)) : Samples S (l.forM f) := by
  induction l with
  | nil => exact Samples.pure _
  | cons a l ih => exact (h a).bind fun _ => ih

theorem foldlM {l : List α} {f : β → α → Prog ω ε σ β} (h : ∀ b a, Samples S (f b a)) (b : β) :
    Samples S (l.foldlM f b) := by
  induction l generalizing b with
  | nil => exact Samples.pure _
  | cons a l ih =>
    rw [List.foldlM_cons]
    exact (h b a).bind ih

theorem mapM {l : List α} {f : α → Prog ω ε σ β} (h : ∀ a, Samples S (f a)) : Samples S (l.mapM f) := by
  induction l with
  | nil => exact Samples.pure _
  | cons a l ih =>
    rw [List.mapM_cons]
    exact (h a).bind fun _ => ih.bind fun _ => Samples.pure _

theorem zoom (l : Lens σ τ) {m : Prog ω ε τ α} (h : Samples S m) : Samples S (Prog.zoom l m) := by
  induction h with
  | still h =>
    refine still fun k s => ?_
    obtain ⟨r, k', t', ht⟩ := h k (l.get s)
    exact ⟨r, k', l.set t' s, fun t => by rw [Prog.exec_zoom, ht]⟩
  | draw h => exact (draw h).of_exec fun w s => by rw [Prog.exec_zoom, Prog.exec_world, Prog.exec_world, l.set_get]
  | bind _ _ ihm ihf =>
    refine (ihm.bind ihf).of_exec fun w s => ?_
    rw [Prog.exec_zoom, Prog.exec_bind, Prog.exec_bind, Prog.exec_zoom]
    rcases Prog.exec _ w (l.get s) with ⟨e | a, w', t⟩
    · rfl
    · simp only [Prog.exec_zoom, l.get_set, l.set_set]

/-- **What follows a program has a fresh tape.** The outcome of a program is a function g of the tape, and what it leaves
of the tape is as good as a tape that is drawn after it. -/
theorem fresh (M : ℕ) [NeZero M] {m : Prog ω ε σ α} (h : Samples S m) (k : κ) (s : σ) :
    ∃ (g : (ℕ → ℕ) → Except ε α × κ × σ) (left : (ℕ → ℕ) → ℕ → ℕ),
      (∀ t, m.exec (S.make t k) s = ((g t).1, S.make (left t) (g t).2.1, (g t).2.2)) ∧
      ∀ F : Except ε α × κ × σ → (ℕ → ℕ) → ℝ≥0∞,
        mean M (fun t => F (g t) (left t)) = mean M fun t => mean M (F (g t)) := by
  induction h generalizing k s with
  | still h =>
    obtain ⟨r, k', s', ht⟩ := h k s
    exact ⟨fun _ => (r, k', s'), id, ht, fun F => (mean_const _).symm⟩
  | draw h =>
    refine ⟨fun t => (.ok (t 0), k, s), fun t n => t (n + 1), fun t => by rw [Prog.exec_world, h], fun F => ?_⟩
    rw [mean_tapeCons, mean_tapeCons]
    apply Finset.sum_congr rfl
    intro x _
    exact congrArg _ (mean_const _).symm
  | @bind α β m f _ _ ihm ihf =>
    obtain ⟨g, left, hm, hmean⟩ := ihm k s
    choose gf leftf hf hmeanf using ihf
    -- what f makes of an outcome of m and the tape that m leaves
    let g' : Except ε α × κ × σ → (ℕ → ℕ) → Except ε β × κ × σ := fun o t =>
      carryOn (fun a k' s' => gf a k' s' t) (fun e k' s' => (.error e, k', s')) o.1 o.2.1 o.2.2
    let left' : Except ε α × κ × σ → (ℕ → ℕ) → ℕ → ℕ := fun o t =>
      carryOn (fun a k' s' => leftf a k' s' t) (fun _ _ _ => t) o.1 o.2.1 o.2.2
    have hstep : ∀ o (F : Except ε β × κ × σ → (ℕ → ℕ) → ℝ≥0∞),
        mean M (fun t => F (g' o t) (left' o t)) = mean M fun t => mean M (F (g' o t)) := by
      rintro ⟨e | a, k', s'⟩ F
      · exact (mean_const _).symm
      · exact hmeanf a k' s' F
    refine ⟨fun t => g' (g t) (left t), fun t => left' (g t) (left t), fun t => ?_, fun F => ?_⟩
    · change _ = ((g' (g t) (left t)).1, S.make (left' (g t) (left t)) (g' (g t) (left t)).2.1, (g' (g t) (left t)).2.2)
      rw [Prog.exec_bind, hm]
      rcases g t with ⟨e | a, k', s'⟩
      · rfl
      · exact hf a k' s' (left t)
    · calc mean M (fun t => F (g' (g t) (left t)) (left' (g t) (left t)))
          = mean M fun t => mean M fun u => F (g' (g t) u) (left' (g t) u) :=
            hmean fun o u => F (g' o u) (left' o u)
        _ = mean M fun t => mean M fun u => mean M (F (g' (g t) u)) := by simp only [hstep]
        _ = mean M fun t => mean M (F (g' (g t) (left t))) := (hmean fun o u => mean M (F (g' o u))).symm

/-- the outcome depends on a prefix of the tape -/
theorem prefix_determines {m : Prog ω ε σ α} (h : Samples S m) (k : κ) (s : σ) (t : ℕ → ℕ) :
    ∃ n r k' s', ∀ u : ℕ → ℕ, (∀ i < n, u i = t i) → m.exec (S.make u k) s = (r, S.make (fun i => u (n + i)) k', s') := by
  induction h generalizing k s t with
  | still h =>
    obtain ⟨r, k', s', ht⟩ := h k s
    exact ⟨0, r, k', s', fun u _ => by simp [ht]⟩
  | draw h =>
    refine ⟨1, .ok (t 0), k, s, fun u hu => ?_⟩
    rw [Prog.exec_world, h, hu 0 one_pos]
    simp only [Nat.add_comm]
  | @bind α β m f _ _ ihm ihf =>
    obtain ⟨n, r, k₁, s₁, hm⟩ := ihm k s t
    cases r with
    | error e =>
      exact ⟨n, .error e, k₁, s₁, fun u hu => by rw [Prog.exec_bind, hm u hu]⟩
    | ok a =>
      obtain ⟨n', r, k₂, s₂, hf⟩ := ihf a k₁ s₁ fun i => t (n + i)
      refine ⟨n + n', r, k₂, s₂, fun u hu => ?_⟩
      rw [Prog.exec_bind, hm u fun i hi => hu i (by omega)]
      have hrest := hf (fun i => u (n + i)) fun i hi => hu (n + i) (by omega)
      simpa only [Nat.add_assoc] using hrest

end Samples

end Samples

/-! ## Expectations -/

section Expect

variable {ω κ ε σ α β : Type} {S : Source ω κ} {M : ℕ} [NeZero M]

variable (S M) in
/-- the expectation of what a program leaves, over its draws -/
noncomputable def expect (m : Prog ω ε σ α) (k : κ) (s : σ) (φ : Except ε α → κ → σ → ℝ≥0∞) : ℝ≥0∞ :=
  mean M fun t => φ (m.exec (S.make t k) s).1 (S.rest (m.exec (S.make t k) s).2.1) (m.exec (S.make t k) s).2.2

variable {m : Prog ω ε σ α} {k : κ} {s : σ} {φ ψ : Except ε α → κ → σ → ℝ≥0∞}

theorem expect_still {r : Except ε α} {k' : κ} {s' : σ} (h : ∀ t, m.exec (S.make t k) s = (r, S.make t k', s')) :
    expect S M m k s φ = φ r k' s' := by
  rw [expect]
  simp only [h, S.rest_make]
  exact mean_const _

theorem expect_draw {f : ω → ℕ × ω} (h : ∀ t k, f (S.make t k) = (t 0, S.make (fun n => t (n + 1)) k))
    {φ : Except ε ℕ → κ → σ → ℝ≥0∞} :
    expect S M (Prog.world f) k s φ = average M fun x => φ (.ok x) k s := by
  rw [expect, mean_tapeCons, average, ← Fin.sum_univ_eq_sum_range (fun x => (M : ℝ≥0∞)⁻¹ * φ (.ok x) k s)]
  apply Finset.sum_congr rfl
  intro x _
  simp only [Prog.exec_world, h, S.rest_make]
  exact congrArg _ (mean_const (φ (.ok (x : ℕ)) k s))

/-- **The expectation of a sequence.** -/
theorem expect_bind (h : Samples S m) {f : α → Prog ω ε σ β} {φ : Except ε β → κ → σ → ℝ≥0∞} :
    expect S M (m >>= f) k s φ =
      expect S M m k s (carryOn (fun a k' s' => expect S M (f a) k' s' φ) fun e k' s' => φ (.error e) k' s') := by
  obtain ⟨g, left, hm, hmean⟩ := h.fresh M k s
  let F : Except ε α × κ × σ → (ℕ → ℕ) → ℝ≥0∞ := fun o t =>
    carryOn (fun a k' s' => φ ((f a).exec (S.make t k') s').1 (S.rest ((f a).exec (S.make t k') s').2.1)
      ((f a).exec (S.make t k') s').2.2) (fun e k' s' => φ (.error e) k' s') o.1 o.2.1 o.2.2
  have hleft : expect S M (m >>= f) k s φ = mean M fun t => F (g t) (left t) := by
    rw [expect]
    congr 1
    funext t
    rw [Prog.exec_bind, hm]
    rcases g t with ⟨e | a, k', s'⟩
    · simp only [F, carryOn, S.rest_make]
    · rfl
  rw [hleft, hmean, expect]
  congr 1
  funext t
  rw [hm, S.rest_make]
  rcases g t with ⟨e | a, k', s'⟩
  · exact mean_const _
  · rfl

theorem expect_const (c : ℝ≥0∞) : expect S M m k s (fun _ _ _ => c) = c := mean_const c

section Triple

variable {P : σ → Prop} {Q : α → σ → Prop} {E : ε → σ → Prop}

/-- the expectation grows with the values of the outcomes that a triple allows -/
theorem expect_mono_of_triple (h : Triple P m Q E) (hs : P s) (hok : ∀ a k' s', Q a s' → φ (.ok a) k' s' ≤ ψ (.ok a) k' s')
    (herr : ∀ e k' s', E e s' → φ (.error e) k' s' ≤ ψ (.error e) k' s') :
    expect S M m k s φ ≤ expect S M m k s ψ := by
  apply mean_mono
  intro t
  have ht := h (S.make t k) s hs
  rcases hr : m.exec (S.make t k) s with ⟨e | a, w', s'⟩
  · rw [hr] at ht
    exact herr e _ s' ht
  · rw [hr] at ht
    exact hok a _ s' ht

/-- the expectation depends on the outcomes that a triple allows -/
theorem expect_congr_of_triple (h : Triple P m Q E) (hs : P s) (hok : ∀ a k' s', Q a s' → φ (.ok a) k' s' = ψ (.ok a) k' s')
    (herr : ∀ e k' s', E e s' → φ (.error e) k' s' = ψ (.error e) k' s') :
    expect S M m k s φ = expect S M m k s ψ :=
  le_antisymm
    (expect_mono_of_triple h hs (fun a k' s' ha => (hok a k' s' ha).le) fun e k' s' he => (herr e k' s' he).le)
    (expect_mono_of_triple h hs (fun a k' s' ha => (hok a k' s' ha).ge) fun e k' s' he => (herr e k' s' he).ge)

end Triple

theorem expect_mono (h : ∀ r k' s', φ r k' s' ≤ ψ r k' s') : expect S M m k s φ ≤ expect S M m k s ψ :=
  mean_mono fun _ => h _ _ _

omit [NeZero M] in
/-- **Events have probabilities.** -/
theorem Samples.measurableSet (h : Samples S m) (p : Except ε α → κ → σ → Prop) :
    MeasurableSet {t : ℕ → Fin M | p (m.exec (S.make (fun n => t n) k) s).1
      (S.rest (m.exec (S.make (fun n => t n) k) s).2.1) (m.exec (S.make (fun n => t n) k) s).2.2} := by
  apply IsOpen.measurableSet
  rw [isOpen_iff_mem_nhds]
  intro t ht
  obtain ⟨n, r, k', s', hn⟩ := h.prefix_determines k s fun i => t i
  have hcylinder : Set.pi (Finset.range n) (fun i => {t i}) ∈ nhds t :=
    set_pi_mem_nhds (Finset.range n).finite_toSet fun i _ => mem_nhds_discrete.2 rfl
  refine Filter.mem_of_superset hcylinder fun u hu => ?_
  have hprefix : ∀ i < n, (u i : ℕ) = t i := fun i hi => congrArg Fin.val (hu i (Finset.mem_coe.2 (Finset.mem_range.2 hi)))
  rw [Set.mem_ofPred_eq, hn _ fun _ _ => rfl, S.rest_make] at ht
  rw [Set.mem_ofPred_eq, hn _ hprefix, S.rest_make]
  exact ht

/-- **Expectations add up.** -/
theorem expect_add (h : Samples S m) (φ ψ : Except ε α → κ → σ → ℝ≥0∞) :
    expect S M m k s (fun r k' s' => φ r k' s' + ψ r k' s') = expect S M m k s φ + expect S M m k s ψ := by
  have hφ : Measurable fun t : ℕ → Fin M => φ (m.exec (S.make (fun n => t n) k) s).1
      (S.rest (m.exec (S.make (fun n => t n) k) s).2.1) (m.exec (S.make (fun n => t n) k) s).2.2 :=
    fun A _ => h.measurableSet fun r k' s' => φ r k' s' ∈ A
  exact lintegral_add_left hφ _

theorem expect_mul {c : ℝ≥0∞} (hc : c ≠ ⊤) (φ : Except ε α → κ → σ → ℝ≥0∞) :
    expect S M m k s (fun r k' s' => c * φ r k' s') = c * expect S M m k s φ :=
  lintegral_const_mul' c _ hc

variable (S M) in
/-- the probability that the outcome has a property -/
noncomputable def chance (m : Prog ω ε σ α) (k : κ) (s : σ) (p : Except ε α → κ → σ → Prop) : ℝ≥0∞ :=
  tapes M {t | p (m.exec (S.make (fun n => t n) k) s).1
    (S.rest (m.exec (S.make (fun n => t n) k) s).2.1) (m.exec (S.make (fun n => t n) k) s).2.2}

theorem chance_eq_expect (h : Samples S m) (p : Except ε α → κ → σ → Prop) :
    chance S M m k s p = expect S M m k s fun r k' s' => truth (p r k' s') := by
  rw [chance, ← lintegral_indicator_one (h.measurableSet p), expect, mean]
  congr 1

/-- the worlds in which one program has a property are among those in which another one has another -/
theorem chance_le_chance {m' : Prog ω ε σ β} {s' : σ} {p : Except ε α → κ → σ → Prop} {q : Except ε β → κ → σ → Prop}
    (h : ∀ t, p (m.exec (S.make t k) s).1 (S.rest (m.exec (S.make t k) s).2.1) (m.exec (S.make t k) s).2.2 →
      q (m'.exec (S.make t k) s').1 (S.rest (m'.exec (S.make t k) s').2.1) (m'.exec (S.make t k) s').2.2) :
    chance S M m k s p ≤ chance S M m' k s' q := measure_mono fun t => h fun n => t n

theorem chance_of_forall_not {p : Except ε α → κ → σ → Prop}
    (h : ∀ t, ¬ p (m.exec (S.make t k) s).1 (S.rest (m.exec (S.make t k) s).2.1) (m.exec (S.make t k) s).2.2) :
    chance S M m k s p = 0 :=
  measure_mono_null (fun t ht => absurd ht (h fun n => t n)) measure_empty

/-- what has a chance happens in some world -/
theorem exists_of_chance_pos {p : Except ε α → κ → σ → Prop} (h : 0 < chance S M m k s p) :
    ∃ t, p (m.exec (S.make t k) s).1 (S.rest (m.exec (S.make t k) s).2.1) (m.exec (S.make t k) s).2.2 := by
  by_contra hnone
  exact h.ne' (chance_of_forall_not (not_exists.1 hnone))

end Expect

/-! ## Abstract programs -/

section Follows

variable {ω κ ε σ α β V : Type} {S : Source ω κ} {M : ℕ} [NeZero M]

/-- the value of what is seen of the state reached, and nothing if the program threw -/
def worth (look : σ → V) (Φ : V → ℝ≥0∞) : Except ε α → κ → σ → ℝ≥0∞
  | .ok _, _, s => Φ (look s)
  | .error _, _, _ => 0

variable (S M) in
/-- from a state with P the program leads to one with Q, and what is seen of it is distributed as the abstract program T
says, which is given by the expectations it leads to. What throws is missing. -/
structure Follows (look : σ → V) (P : σ → Prop) (m : Prog ω ε σ α) (Q : σ → Prop) (T : (V → ℝ≥0∞) → V → ℝ≥0∞) : Prop where
  samples : Samples S m
  keeps : Triple P m (fun _ => Q) fun _ _ => True
  le : ∀ Φ k s, P s → expect S M m k s (worth look Φ) ≤ T Φ (look s)

namespace Follows

variable {look : σ → V} {P Q R : σ → Prop} {m : Prog ω ε σ α} {T T' : (V → ℝ≥0∞) → V → ℝ≥0∞}

/-- a program that does one thing to what is seen -/
theorem of_triple (hm : Samples S m) {f : V → V}
    (h : ∀ v, Triple (fun s => P s ∧ look s = v) m (fun _ s => Q s ∧ look s = f v) fun _ _ => True) :
    Follows S M look P m Q fun Φ v => Φ (f v) where
  samples := hm
  keeps w s hs := (h (look s)).conseq (fun _ h => h) (fun _ _ h => h.1) (fun _ _ _ => trivial) w s ⟨hs, rfl⟩
  le Φ k s hs := by
    have hmono := expect_mono_of_triple (S := S) (M := M) (k := k) (φ := worth look Φ)
      (ψ := fun _ _ _ => Φ (f (look s))) (h (look s)) ⟨hs, rfl⟩ (fun _ _ s' h => by rw [worth, h.2]) fun _ _ _ _ => zero_le
    exact hmono.trans_eq (expect_const _)

theorem pure (a : α) : Follows S M look P (pure a : Prog ω ε σ α) P fun Φ => Φ :=
  of_triple (f := id) (Samples.pure a) fun _ => Triple.pure fun _ hs => hs

/-- a program that never returns shows nothing -/
theorem of_not_ok (hm : Samples S m) (h : Triple P m (fun _ _ => False) fun _ _ => True) :
    Follows S M look P m Q T where
  samples := hm
  keeps := h.post fun _ _ => False.elim
  le Φ k s hs := by
    have hmono := expect_mono_of_triple (S := S) (M := M) (k := k) (φ := worth look Φ) (ψ := fun _ _ _ => 0) h hs
      (fun _ _ _ => False.elim) fun _ _ _ _ => le_rfl
    exact (hmono.trans_eq (expect_const 0)).trans zero_le

theorem throw (e : ε) : Follows S M look P (throw e : Prog ω ε σ α) Q T :=
  of_not_ok (Samples.throw e) (Triple.throw fun _ _ => trivial)

theorem ite {c : Prop} [Decidable c] {m' : Prog ω ε σ α} (ht : c → Follows S M look P m Q T)
    (hf : ¬ c → Follows S M look P m' Q T) : Follows S M look P (if c then m else m') Q T := by
  split_ifs with h
  · exact ht h
  · exact hf h

/-- **The abstract programs are composed.** -/
theorem bind (hm : Follows S M look P m Q T) {f : α → Prog ω ε σ β} (hf : ∀ a, Follows S M look Q (f a) R T') :
    Follows S M look P (m >>= f) R fun Φ => T (T' Φ) where
  samples := hm.samples.bind fun a => (hf a).samples
  keeps := Triple.bind hm.keeps fun a => (hf a).keeps
  le Φ k s hs := by
    calc expect S M (m >>= f) k s (worth look Φ)
        = expect S M m k s (carryOn (fun a k' s' => expect S M (f a) k' s' (worth look Φ)) fun e k' s' =>
            worth look Φ (.error e : Except ε β) k' s') := expect_bind hm.samples
      _ ≤ expect S M m k s (worth look (T' Φ)) :=
          expect_mono_of_triple hm.keeps hs (fun a k' s' hs' => (hf a).le Φ k' s' hs') fun _ _ _ _ => le_rfl
      _ ≤ T (T' Φ) (look s) := hm.le _ k s hs

theorem conseq (h : Follows S M look P m Q T) {P' Q' : σ → Prop} (hP : ∀ s, P' s → P s) (hQ : ∀ s, Q s → Q' s)
    (hT : ∀ Φ s, P' s → T Φ (look s) ≤ T' Φ (look s)) : Follows S M look P' m Q' T' where
  samples := h.samples
  keeps := h.keeps.conseq hP (fun _ => hQ) fun _ _ h => h
  le Φ k s hs := (h.le Φ k s (hP s hs)).trans (hT Φ s hs)

variable {k : κ} {s : σ}

/-- what is seen of an outcome that returned has a property -/
def Shows (look : σ → V) (p : V → Prop) : Except ε α → κ → σ → Prop
  | .ok _, _, s => p (look s)
  | .error _, _, _ => False

/-- the program threw -/
def Threw : Except ε α → κ → σ → Prop
  | .ok _, _, _ => False
  | .error _, _, _ => True

/-- **No value is less than the abstract program says**, but for what throws. The value is bounded by a constant, which the
abstract program keeps. -/
theorem le_expect_add (h : Follows S M look P m Q T) (hs : P s) {Φ Ψ : V → ℝ≥0∞} {c : ℝ≥0∞} (hc : c ≠ ⊤)
    (hsum : ∀ v, Φ v + Ψ v = c) (htotal : T Φ (look s) + T Ψ (look s) = c) :
    T Φ (look s) ≤ expect S M m k s (worth look Φ) + c * chance S M m k s Threw := by
  have hrest := h.le Ψ k s hs
  have hfinite : T Ψ (look s) ≠ ⊤ := by
    intro htop
    rw [htop, add_top] at htotal
    exact hc htotal.symm
  have hcases : ∀ (r : Except ε α) (k' : κ) s',
      worth look Φ r k' s' + worth look Ψ r k' s' + c * truth (Threw r k' s') = c := by
    intro r k' s'
    cases r with
    | error e => simp [worth, Threw]
    | ok a => simp [worth, Threw, hsum]
  refine (ENNReal.add_le_add_iff_right hfinite).1 ?_
  calc T Φ (look s) + T Ψ (look s) = expect S M m k s fun r k' s' =>
          worth look Φ r k' s' + worth look Ψ r k' s' + c * truth (Threw r k' s') := by
        simp only [hcases]
        rw [htotal, expect_const]
    _ = expect S M m k s (worth look Φ) + expect S M m k s (worth look Ψ) + c * chance S M m k s Threw := by
        rw [expect_add h.samples, expect_add h.samples, expect_mul hc, chance_eq_expect h.samples]
    _ = expect S M m k s (worth look Φ) + c * chance S M m k s Threw + expect S M m k s (worth look Ψ) :=
        add_right_comm _ _ _
    _ ≤ expect S M m k s (worth look Φ) + c * chance S M m k s Threw + T Ψ (look s) := by gcongr

/-- the value of a property is its probability -/
theorem chance_shows (h : Samples S m) (p : V → Prop) :
    chance S M m k s (Shows look p) = expect S M m k s (worth look fun v => truth (p v)) := by
  rw [chance_eq_expect h]
  congr 1
  funext r k' s'
  cases r with
  | error e => simp [Shows, worth]
  | ok a => rfl

/-- **No property is likelier than the abstract program says.** -/
theorem chance_le (h : Follows S M look P m Q T) (hs : P s) (p : V → Prop) :
    chance S M m k s (Shows look p) ≤ T (fun v => truth (p v)) (look s) := by
  rw [chance_shows h.samples]
  exact h.le _ k s hs

/-- **No property is less likely**, but for what throws. -/
theorem le_chance_add (h : Follows S M look P m Q T) (hs : P s) (p : V → Prop)
    (htotal : T (fun v => truth (p v)) (look s) + T (fun v => truth (¬ p v)) (look s) = 1) :
    T (fun v => truth (p v)) (look s) ≤ chance S M m k s (Shows look p) + chance S M m k s Threw := by
  have hle := h.le_expect_add (k := k) hs ENNReal.one_ne_top (fun v => truth_add_not (p v)) htotal
  rwa [one_mul, ← chance_shows h.samples] at hle

end Follows

end Follows

end PathOram.Lib
