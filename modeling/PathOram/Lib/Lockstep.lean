/-
Programs in lock-step.

Two programs over different states run in one world. `Lockstep R m m'`: from states that R relates they have the same outcome,
leave the same world, and reach states that R relates. Unlike a simulation it fixes the world, so nothing is chosen, and the
programs may still take different ways to the outcome.

- `Quiet m`: the program m leaves the world alone. `Alike.of_triples`: **two quiet programs are compared by their triples.**
- `Alike.bind`, `Lockstep.bind`, `Lockstep.bind_post`: sequences; what follows may use what the first program is known to
  return.
- `Lockstep.zoom`: programs over parts of the states.
- `Lockstep.forM`, `Lockstep.foldlM`, `Lockstep.mapM`: loops.
-/
import PathOram.Lib.Prog

namespace PathOram.Lib

variable {ω ε σ σ' τ τ' α β : Type}

/-! ## Quiet programs -/

/-- the program leaves the world alone -/
def Quiet (m : Prog ω ε σ α) : Prop := ∀ w s, (m.exec w s).2.1 = w

namespace Quiet

variable {m : Prog ω ε σ α}

theorem pure (a : α) : Quiet (pure a : Prog ω ε σ α) := fun _ _ => rfl

theorem throw (e : ε) : Quiet (throw e : Prog ω ε σ α) := fun _ _ => rfl

theorem modify (f : σ → σ) : Quiet (Prog.modify f : Prog ω ε σ Unit) := fun _ _ => rfl

theorem bind (hm : Quiet m) {f : α → Prog ω ε σ β} (hf : ∀ a, Quiet (f a)) : Quiet (m >>= f) := by
  intro w s
  rcases hr : m.exec w s with ⟨e | a, w', s'⟩
  · have hw : w' = w := by simpa [hr] using hm w s
    rw [Prog.exec_bind_error hr, hw]
  · have hw : w' = w := by simpa [hr] using hm w s
    rw [Prog.exec_bind_ok hr, hw]
    exact hf a w s'

theorem ite {c : Prop} [Decidable c] {m' : Prog ω ε σ α} (ht : Quiet m) (hf : Quiet m') :
    Quiet (if c then m else m') := by
  split_ifs
  · exact ht
  · exact hf

theorem zoom (l : Lens σ τ) {m : Prog ω ε τ α} (h : Quiet m) : Quiet (Prog.zoom l m) := fun w s => h w (l.get s)

theorem forM {l : List α} {f : α → Prog ω ε σ PUnit} (h : ∀ a, Quiet (f a)) : Quiet (l.forM f) := by
  induction l with
  | nil => exact Quiet.pure _
  | cons a l ih => exact (h a).bind fun _ => ih

end Quiet

/-! ## Outcomes -/

/-- the same outcome and the same world, and states that R relates -/
def Alike (R : σ → σ' → Prop) (o : Except ε α × ω × σ) (o' : Except ε α × ω × σ') : Prop :=
  o.1 = o'.1 ∧ o.2.1 = o'.2.1 ∧ R o.2.2 o'.2.2

/-- from states that R relates, the same outcome, the same world left, and states that R relates -/
def Lockstep (R : σ → σ' → Prop) (m : Prog ω ε σ α) (m' : Prog ω ε σ' α) : Prop :=
  ∀ w s s', R s s' → Alike R (m.exec w s) (m'.exec w s')

variable {R : σ → σ' → Prop} {m : Prog ω ε σ α} {m' : Prog ω ε σ' α}

/-- **Two quiet programs are compared by their triples.** They return what the triples say, and it is the same. -/
theorem Alike.of_triples (hm : Quiet m) (hm' : Quiet m') {P : σ → Prop} {P' : σ' → Prop} {Q : α → σ → Prop}
    {Q' : α → σ' → Prop} (h : Triple P m Q fun _ _ => False) (h' : Triple P' m' Q' fun _ _ => False) {s : σ} {s' : σ'}
    (hs : P s) (hs' : P' s') (hsame : ∀ a a' t t', Q a t → Q' a' t' → a = a' ∧ R t t') (w : ω) :
    Alike R (m.exec w s) (m'.exec w s') := by
  have hw := hm w s
  have hw' := hm' w s'
  have hQ := h w s hs
  have hQ' := h' w s' hs'
  rcases hr : m.exec w s with ⟨e | a, v, t⟩
  · rw [hr] at hQ
    exact hQ.elim
  · rcases hr' : m'.exec w s' with ⟨e | a', v', t'⟩
    · rw [hr'] at hQ'
      exact hQ'.elim
    · rw [hr] at hw hQ
      rw [hr'] at hw' hQ'
      obtain ⟨rfl, hR⟩ := hsame a a' t t' hQ hQ'
      exact ⟨rfl, hw.trans hw'.symm, hR⟩

theorem Alike.bind {T : σ → σ' → Prop} {f : α → Prog ω ε σ β} {f' : α → Prog ω ε σ' β} {w : ω} {s : σ} {s' : σ'}
    (h : Alike T (m.exec w s) (m'.exec w s')) (hT : ∀ t t', T t t' → R t t')
    (hf : ∀ a t t' v, m.exec w s = (.ok a, v, t) → T t t' → Alike R ((f a).exec v t) ((f' a).exec v t')) :
    Alike R ((m >>= f).exec w s) ((m' >>= f').exec w s') := by
  rcases hr : m.exec w s with ⟨r, v, t⟩
  rcases hr' : m'.exec w s' with ⟨r', v', t'⟩
  rw [hr, hr'] at h
  obtain ⟨hresult, hworld, hR⟩ := h
  simp only at hresult hworld hR
  subst hresult hworld
  cases r with
  | error e =>
    rw [Prog.exec_bind_error hr, Prog.exec_bind_error hr']
    exact ⟨rfl, rfl, hT t t' hR⟩
  | ok a =>
    rw [Prog.exec_bind_ok hr, Prog.exec_bind_ok hr']
    exact hf a t t' v hr hR

namespace Lockstep

/-! ## Statements -/

theorem pure (a : α) : Lockstep R (pure a : Prog ω ε σ α) (pure a : Prog ω ε σ' α) := fun _ _ _ h => ⟨rfl, rfl, h⟩

theorem throw (e : ε) : Lockstep R (throw e : Prog ω ε σ α) (throw e : Prog ω ε σ' α) := fun _ _ _ h => ⟨rfl, rfl, h⟩

theorem ofExcept (r : Except ε α) : Lockstep R (Prog.ofExcept r : Prog ω ε σ α) (Prog.ofExcept r : Prog ω ε σ' α) :=
  fun _ _ _ h => ⟨rfl, rfl, h⟩

/-- both ask the world the same -/
theorem world (f : ω → α × ω) : Lockstep R (Prog.world f : Prog ω ε σ α) (Prog.world f : Prog ω ε σ' α) :=
  fun _ _ _ h => ⟨rfl, rfl, h⟩

theorem modify {f : σ → σ} {f' : σ' → σ'} (h : ∀ s s', R s s' → R (f s) (f' s')) :
    Lockstep R (Prog.modify f : Prog ω ε σ Unit) (Prog.modify f' : Prog ω ε σ' Unit) := fun _ s s' hs => ⟨rfl, rfl, h s s' hs⟩

/-- one program on equal states -/
theorem refl (m : Prog ω ε σ α) : Lockstep Eq m m := by
  intro w s s' h
  subst h
  exact ⟨rfl, rfl, rfl⟩

theorem bind {f : α → Prog ω ε σ β} {f' : α → Prog ω ε σ' β} (hm : Lockstep R m m') (hf : ∀ a, Lockstep R (f a) (f' a)) :
    Lockstep R (m >>= f) (m' >>= f') := fun w s s' hs =>
  (hm w s s' hs).bind (fun _ _ h => h) fun a t t' v _ ht => hf a v t t' ht

/-- what follows may use what the first program is known to return -/
theorem bind_post {f : α → Prog ω ε σ β} {f' : α → Prog ω ε σ' β} {Q : α → Prop} (hm : Lockstep R m m')
    (hQ : Triple (fun _ => True) m (fun a _ => Q a) fun _ _ => True) (hf : ∀ a, Q a → Lockstep R (f a) (f' a)) :
    Lockstep R (m >>= f) (m' >>= f') := fun w s s' hs =>
  (hm w s s' hs).bind (fun _ _ h => h) fun a t t' v hr ht => hf a (hQ.ok trivial hr) v t t' ht

/-- what follows a reading may depend on what was read -/
theorem read_bind {f : σ → Prog ω ε σ α} {f' : σ' → Prog ω ε σ' α}
    (h : ∀ w s s', R s s' → Alike R ((f s).exec w s) ((f' s').exec w s')) :
    Lockstep R (Prog.read >>= f) (Prog.read >>= f') := by
  intro w s s' hs
  rw [Prog.exec_bind_ok (Prog.exec_read w s), Prog.exec_bind_ok (Prog.exec_read w s')]
  exact h w s s' hs

theorem ite {c : Prop} [Decidable c] {n : Prog ω ε σ α} {n' : Prog ω ε σ' α} (ht : Lockstep R m m')
    (hf : Lockstep R n n') : Lockstep R (if c then m else n) (if c then m' else n') := by
  split_ifs
  · exact ht
  · exact hf

/-- programs over parts of the states, which R relates by a relation of their own -/
theorem zoom {T : τ → τ' → Prop} {l : Lens σ τ} {l' : Lens σ' τ'} {m : Prog ω ε τ α} {m' : Prog ω ε τ' α}
    (h : Lockstep T m m') (hget : ∀ s s', R s s' → T (l.get s) (l'.get s'))
    (hset : ∀ s s' t t', R s s' → T t t' → R (l.set t s) (l'.set t' s')) :
    Lockstep R (Prog.zoom l m) (Prog.zoom l' m') := by
  intro w s s' hs
  obtain ⟨hresult, hworld, hT⟩ := h w _ _ (hget s s' hs)
  exact ⟨hresult, hworld, hset s s' _ _ hs hT⟩

theorem attempt (h : Lockstep R m m') : Lockstep R (Prog.attempt m) (Prog.attempt m') := by
  intro w s s' hs
  obtain ⟨hresult, hworld, hR⟩ := h w s s' hs
  exact ⟨congrArg Except.ok hresult, hworld, hR⟩

/-! ## Loops -/

theorem forM {l : List α} {f : α → Prog ω ε σ PUnit} {f' : α → Prog ω ε σ' PUnit} (h : ∀ a, Lockstep R (f a) (f' a)) :
    Lockstep R (l.forM f) (l.forM f') := by
  induction l with
  | nil => exact Lockstep.pure _
  | cons a l ih =>
    change Lockstep R (f a >>= fun _ => l.forM f) (f' a >>= fun _ => l.forM f')
    exact (h a).bind fun _ => ih

theorem foldlM {l : List α} {f : β → α → Prog ω ε σ β} {f' : β → α → Prog ω ε σ' β}
    (h : ∀ b a, Lockstep R (f b a) (f' b a)) (b : β) : Lockstep R (l.foldlM f b) (l.foldlM f' b) := by
  induction l generalizing b with
  | nil => exact Lockstep.pure _
  | cons a l ih =>
    rw [List.foldlM_cons, List.foldlM_cons]
    exact (h b a).bind fun b => ih b

theorem mapM {l : List α} {f : α → Prog ω ε σ β} {f' : α → Prog ω ε σ' β} (h : ∀ a, Lockstep R (f a) (f' a)) :
    Lockstep R (l.mapM f) (l.mapM f') := by
  induction l with
  | nil => exact Lockstep.pure _
  | cons a l ih =>
    rw [List.mapM_cons, List.mapM_cons]
    exact (h a).bind fun b => ih.bind fun bs => Lockstep.pure _

end Lockstep

end PathOram.Lib
