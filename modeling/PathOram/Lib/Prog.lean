/-
Programs with state and exceptions, and a Hoare logic for them.

A program reads and writes a state σ and draws on a world ω (random bytes, orders of iteration, ...) which assertions
do not see: a triple quantifies over every world, so it holds for every choice the world can make. A program either
returns or throws, and a throw keeps the state reached, as it does in an imperative language whose objects outlive an
exception.

- `Triple P m Q E`: from a state with P, the program m ends in a state with Q when it returns and with E when it throws.
- `zoom`: a program over a part of the state, run on the whole through a lens. `Triple.zoom` is the frame rule.
- `Triple.forM`, `Triple.foldlM`, `Triple.mapM`: the loop rules, with an invariant over the rest of the list.
- `Triple.and`: two facts about one program are proved apart.
- `ThrowsOnly E m`: the program m throws nothing but what E allows.
- `Refines R v m Q E`: from a state that R relates to the abstract state v, the program m ends in a state that R
  relates to one of the abstract states Q allows. `Refines.bind` composes such steps.
-/
import Mathlib.Tactic

namespace PathOram.Lib

/-- a program over the state σ and the hidden world ω that returns an α or throws an ε -/
abbrev Prog (ω ε σ α : Type) := ExceptT ε (StateM (ω × σ)) α

/-- a part τ of a state σ -/
structure Lens (σ τ : Type) where
  get : σ → τ
  set : τ → σ → σ
  get_set : ∀ t s, get (set t s) = t
  set_get : ∀ s, set (get s) s = s
  set_set : ∀ t t' s, set t (set t' s) = set t s

namespace Prog

variable {ω ε σ τ α β : Type}

/-- run a program from a world and a state -/
def exec (m : Prog ω ε σ α) (w : ω) (s : σ) : Except ε α × ω × σ := m.run (w, s)

def read : Prog ω ε σ σ := ExceptT.mk fun p => (.ok p.2, p)

def modify (f : σ → σ) : Prog ω ε σ Unit := ExceptT.mk fun p => (.ok (), p.1, f p.2)

/-- ask the world -/
def world (f : ω → α × ω) : Prog ω ε σ α := ExceptT.mk fun p => (.ok (f p.1).1, (f p.1).2, p.2)

def ofExcept (r : Except ε α) : Prog ω ε σ α := ExceptT.mk fun p => (r, p)

/-- run a program over a part of the state -/
def zoom (l : Lens σ τ) (m : Prog ω ε τ α) : Prog ω ε σ α :=
  ExceptT.mk fun p => let r := exec m p.1 (l.get p.2); (r.1, r.2.1, l.set r.2.2 p.2)

/-- run a program to whatever outcome and return that -/
def attempt (m : Prog ω ε σ α) : Prog ω ε σ (Except ε α) :=
  ExceptT.mk fun p => let r := exec m p.1 p.2; (.ok r.1, r.2.1, r.2.2)

@[simp] theorem exec_attempt (m : Prog ω ε σ α) (w : ω) (s : σ) :
    exec (attempt m) w s = (.ok (exec m w s).1, (exec m w s).2.1, (exec m w s).2.2) := rfl

@[simp] theorem exec_pure (a : α) (w : ω) (s : σ) : exec (pure a : Prog ω ε σ α) w s = (.ok a, w, s) := rfl

@[simp] theorem exec_throw (e : ε) (w : ω) (s : σ) : exec (throw e : Prog ω ε σ α) w s = (.error e, w, s) := rfl

@[simp] theorem exec_read (w : ω) (s : σ) : exec (read : Prog ω ε σ σ) w s = (.ok s, w, s) := rfl

@[simp] theorem exec_modify (f : σ → σ) (w : ω) (s : σ) :
    exec (modify f : Prog ω ε σ Unit) w s = (.ok (), w, f s) := rfl

@[simp] theorem exec_world (f : ω → α × ω) (w : ω) (s : σ) :
    exec (world f : Prog ω ε σ α) w s = (.ok (f w).1, (f w).2, s) := rfl

@[simp] theorem exec_ofExcept (r : Except ε α) (w : ω) (s : σ) :
    exec (ofExcept r : Prog ω ε σ α) w s = (r, w, s) := rfl

@[simp] theorem exec_zoom (l : Lens σ τ) (m : Prog ω ε τ α) (w : ω) (s : σ) :
    exec (zoom l m) w s = ((exec m w (l.get s)).1, (exec m w (l.get s)).2.1, l.set (exec m w (l.get s)).2.2 s) := rfl

theorem exec_eq {m : Prog ω ε σ α} {w : ω} {s : σ} {r : Except ε α} (h : (exec m w s).1 = r) :
    exec m w s = (r, (exec m w s).2.1, (exec m w s).2.2) := Prod.ext h rfl

theorem exec_bind (m : Prog ω ε σ α) (f : α → Prog ω ε σ β) (w : ω) (s : σ) :
    exec (m >>= f) w s =
      match exec m w s with
      | (.ok a, w', s') => exec (f a) w' s'
      | (.error e, w', s') => (.error e, w', s') := by
  have hrun : (m >>= f : Prog ω ε σ β).run (w, s) =
      (match (m.run (w, s) : Except ε α × ω × σ) with
        | (.ok a, p) => ((f a).run p : Except ε β × ω × σ)
        | (.error e, p) => (.error e, p)) := by
    rw [ExceptT.run_bind]
    change (match (m.run (w, s) : Except ε α × ω × σ) with
      | (r, p) => (match r with
        | .ok a => (f a).run
        | .error e => Pure.pure (.error e) : StateM (ω × σ) (Except ε β)) p) = _
    rcases (m.run (w, s) : Except ε α × ω × σ) with ⟨_ | _, _, _⟩ <;> rfl
  simp only [exec]
  rw [hrun]
  rcases (m.run (w, s) : Except ε α × ω × σ) with ⟨_ | _, _, _⟩ <;> rfl

theorem exec_bind_ok {m : Prog ω ε σ α} {f : α → Prog ω ε σ β} {w w' : ω} {s s' : σ} {a : α}
    (h : exec m w s = (.ok a, w', s')) : exec (m >>= f) w s = exec (f a) w' s' := by
  rw [exec_bind, h]

theorem exec_bind_error {m : Prog ω ε σ α} {f : α → Prog ω ε σ β} {w w' : ω} {s s' : σ} {e : ε}
    (h : exec m w s = (.error e, w', s')) : exec (m >>= f) w s = (.error e, w', s') := by
  rw [exec_bind, h]

/-- a sequence that returned is two programs that returned -/
theorem exec_bind_inv {m : Prog ω ε σ α} {f : α → Prog ω ε σ β} {w w' : ω} {s s' : σ} {b : β}
    (h : exec (m >>= f) w s = (.ok b, w', s')) :
    ∃ a w₁ s₁, exec m w s = (.ok a, w₁, s₁) ∧ exec (f a) w₁ s₁ = (.ok b, w', s') := by
  rw [exec_bind] at h
  rcases hm : exec m w s with ⟨e | a, w₁, s₁⟩
  · rw [hm] at h; simp at h
  · rw [hm] at h; exact ⟨a, w₁, s₁, rfl, h⟩

/-- what a program over a part returns may be changed on the whole -/
theorem zoom_map (l : Lens σ τ) (m : Prog ω ε τ α) (f : α → β) :
    zoom l (do return f (← m)) = (do return f (← zoom l m)) := by
  refine ExceptT.ext (funext fun p => ?_)
  change exec (zoom l (m >>= fun a => pure (f a))) p.1 p.2 = exec (zoom l m >>= fun a => pure (f a)) p.1 p.2
  rw [exec_zoom, exec_bind, exec_bind, exec_zoom]
  rcases m.exec p.1 (l.get p.2) with ⟨e | a, w, t⟩
  · rfl
  · rfl

end Prog

/-! ## Triples -/

section Triple

variable {ω ε σ τ α β : Type}

/-- what a triple asks of an outcome -/
def Outcome (Q : α → σ → Prop) (E : ε → σ → Prop) : Except ε α × ω × σ → Prop
  | (.ok a, _, s) => Q a s
  | (.error e, _, s) => E e s

/-- from a state with P, m ends with Q if it returns and with E if it throws, whatever the world -/
def Triple (P : σ → Prop) (m : Prog ω ε σ α) (Q : α → σ → Prop) (E : ε → σ → Prop) : Prop :=
  ∀ w s, P s → Outcome Q E (m.exec w s)

variable {P P' : σ → Prop} {m : Prog ω ε σ α} {Q Q' : α → σ → Prop} {E E' : ε → σ → Prop}

theorem Triple.ok (h : Triple P m Q E) {w w' : ω} {s s' : σ} {a : α} (hP : P s)
    (he : m.exec w s = (.ok a, w', s')) : Q a s' := by
  have := h w s hP
  rw [he] at this
  exact this

theorem Triple.error (h : Triple P m Q E) {w w' : ω} {s s' : σ} {e : ε} (hP : P s)
    (he : m.exec w s = (.error e, w', s')) : E e s' := by
  have := h w s hP
  rw [he] at this
  exact this

theorem Triple.trivial (P : σ → Prop) (m : Prog ω ε σ α) : Triple P m (fun _ _ => True) (fun _ _ => True) := by
  intro w s _
  rcases m.exec w s with ⟨_ | _, _, _⟩
  · exact True.intro
  · exact True.intro

/-- the rule of consequence -/
theorem Triple.conseq (h : Triple P m Q E) (hP : ∀ s, P' s → P s) (hQ : ∀ a s, Q a s → Q' a s)
    (hE : ∀ e s, E e s → E' e s) : Triple P' m Q' E' := by
  intro w s hs
  have := h w s (hP s hs)
  rcases hr : m.exec w s with ⟨e | a, w', s'⟩
  · rw [hr] at this; exact hE e s' this
  · rw [hr] at this; exact hQ a s' this

theorem Triple.pre (h : Triple P m Q E) (hP : ∀ s, P' s → P s) : Triple P' m Q E :=
  h.conseq hP (fun _ _ => id) (fun _ _ => id)

theorem Triple.post (h : Triple P m Q E) (hQ : ∀ a s, Q a s → Q' a s) : Triple P m Q' E :=
  h.conseq (fun _ => id) hQ (fun _ _ => id)

/-- a fact that the state does not change is moved out of the precondition -/
theorem Triple.of_pure {p : Prop} (h : p → Triple P m Q E) : Triple (fun s => p ∧ P s) m Q E :=
  fun w s hs => h hs.1 w s hs.2

theorem Triple.exists_pre {ι : Type} {P : ι → σ → Prop} (h : ∀ i, Triple (P i) m Q E) :
    Triple (fun s => ∃ i, P i s) m Q E :=
  fun w s ⟨i, hs⟩ => h i w s hs

theorem Triple.and (h : Triple P m Q E) (h' : Triple P' m Q' E') :
    Triple (fun s => P s ∧ P' s) m (fun a s => Q a s ∧ Q' a s) (fun e s => E e s ∧ E' e s) := by
  intro w s hs
  have h1 := h w s hs.1
  have h2 := h' w s hs.2
  rcases hr : m.exec w s with ⟨e | a, w', s'⟩
  · rw [hr] at h1 h2; exact ⟨h1, h2⟩
  · rw [hr] at h1 h2; exact ⟨h1, h2⟩

theorem Triple.pure {a : α} (h : ∀ s, P s → Q a s) : Triple P (pure a : Prog ω ε σ α) Q E := fun _ s hs => h s hs

theorem Triple.throw {e : ε} (h : ∀ s, P s → E e s) : Triple P (throw e : Prog ω ε σ α) Q E := fun _ s hs => h s hs

theorem Triple.read {Q : σ → σ → Prop} (h : ∀ s, P s → Q s s) : Triple P (Prog.read : Prog ω ε σ σ) Q E :=
  fun _ s hs => h s hs

theorem Triple.modify {f : σ → σ} {Q : Unit → σ → Prop} (h : ∀ s, P s → Q () (f s)) :
    Triple P (Prog.modify f : Prog ω ε σ Unit) Q E :=
  fun _ s hs => h s hs

theorem Triple.world {f : ω → α × ω} (h : ∀ w s, P s → Q (f w).1 s) : Triple P (Prog.world f : Prog ω ε σ α) Q E :=
  fun w s hs => h w s hs

theorem Triple.ofExcept {r : Except ε α} (hok : ∀ a s, r = .ok a → P s → Q a s)
    (herr : ∀ e s, r = .error e → P s → E e s) : Triple P (Prog.ofExcept r : Prog ω ε σ α) Q E := by
  intro w s hs
  rw [Prog.exec_ofExcept]
  cases r with
  | ok a => exact hok a s rfl hs
  | error e => exact herr e s rfl hs

theorem Triple.bind {f : α → Prog ω ε σ β} {R : β → σ → Prop} (hm : Triple P m Q E)
    (hf : ∀ a, Triple (Q a) (f a) R E) : Triple P (m >>= f) R E := by
  intro w s hs
  have := hm w s hs
  rw [Prog.exec_bind]
  rcases hr : m.exec w s with ⟨e | a, w', s'⟩
  · rw [hr] at this; exact this
  · rw [hr] at this; exact hf a w' s' this

theorem Triple.ite {c : Prop} [Decidable c] {m' : Prog ω ε σ α} (ht : c → Triple P m Q E)
    (hf : ¬ c → Triple P m' Q E) : Triple P (if c then m else m') Q E := by
  split_ifs with h
  · exact ht h
  · exact hf h

/-- **The frame rule.** A program over a part of the state leaves the rest as it was. -/
theorem Triple.zoom (l : Lens σ τ) {P : τ → Prop} {m : Prog ω ε τ α} {Q : α → τ → Prop} {E : ε → τ → Prop}
    (h : Triple P m Q E) (s₀ : σ) :
    Triple (fun s => s = s₀ ∧ P (l.get s)) (Prog.zoom l m) (fun a s => ∃ t, s = l.set t s₀ ∧ Q a t)
      (fun e s => ∃ t, s = l.set t s₀ ∧ E e t) := by
  rintro w s ⟨rfl, hP⟩
  have := h w (l.get s) hP
  rw [Prog.exec_zoom]
  rcases hr : m.exec w (l.get s) with ⟨e | a, w', t⟩
  · rw [hr] at this; exact ⟨t, rfl, this⟩
  · rw [hr] at this; exact ⟨t, rfl, this⟩

/-- the frame rule with a frame: F may speak of everything but the part -/
theorem Triple.zoom_frame (l : Lens σ τ) {P : τ → Prop} {m : Prog ω ε τ α} {Q : α → τ → Prop} {E : ε → τ → Prop}
    (h : Triple P m Q E) {F : σ → Prop} (hF : ∀ t s, F s → F (l.set t s)) :
    Triple (fun s => P (l.get s) ∧ F s) (Prog.zoom l m) (fun a s => Q a (l.get s) ∧ F s)
      (fun e s => E e (l.get s) ∧ F s) := by
  intro w s hs
  have hz := Triple.zoom l h s w s ⟨rfl, hs.1⟩
  rcases hr : (Prog.zoom l m).exec w s with ⟨e | a, w', s'⟩
  · rw [hr] at hz
    obtain ⟨t, rfl, hE⟩ := hz
    exact ⟨by rwa [l.get_set], hF t s hs.2⟩
  · rw [hr] at hz
    obtain ⟨t, rfl, hQ⟩ := hz
    exact ⟨by rwa [l.get_set], hF t s hs.2⟩

/-- what a change of the part cannot touch is kept, whatever the program -/
theorem Triple.zoom_keeps (l : Lens σ τ) {P : σ → Prop} (hP : ∀ t s, P s → P (l.set t s)) (m : Prog ω ε τ α) :
    Triple P (Prog.zoom l m) (fun _ => P) (fun _ => P) := by
  intro w s hs
  rw [Prog.exec_zoom]
  rcases hr : m.exec w (l.get s) with ⟨e | a, w', t⟩
  · exact hP t s hs
  · exact hP t s hs

/-- what a program keeps whether it returns or throws holds of the state it leaves -/
theorem Triple.state {P' : σ → Prop} (h : Triple P m (fun _ => P') (fun _ => P')) {w : ω} {s : σ} (hs : P s) :
    P' (m.exec w s).2.2 := by
  have h' := h w s hs
  rcases hr : m.exec w s with ⟨e | a, w', s'⟩
  · rw [hr] at h'
    exact h'
  · rw [hr] at h'
    exact h'

/-- what holds of the state that a program leaves still holds when a program that keeps it follows -/
theorem Triple.bind_state {f : α → Prog ω ε σ β} {w : ω} {s : σ} (hm : P (m.exec w s).2.2)
    (hf : ∀ a, Triple P (f a) (fun _ => P) (fun _ => P)) : P ((m >>= f).exec w s).2.2 := by
  rcases hr : m.exec w s with ⟨e | a, w', s'⟩
  · rw [hr] at hm
    rw [Prog.exec_bind_error hr]
    exact hm
  · rw [hr] at hm
    rw [Prog.exec_bind_ok hr]
    exact (hf a).state hm

/-- what holds after the program whether it returns or throws holds after an attempt -/
theorem Triple.attempt {P' : σ → Prop} (h : Triple P m (fun _ => P') (fun _ => P')) :
    Triple P (Prog.attempt m) (fun _ => P') E := by
  intro w s hs
  have h' := h w s hs
  rw [Prog.exec_attempt]
  rcases hr : m.exec w s with ⟨e | a, w', s'⟩
  · rw [hr] at h'
    exact h'
  · rw [hr] at h'
    exact h'

/-! ## Loops -/

/-- a loop over a list, with an invariant over the elements still to come -/
theorem Triple.forM {l : List α} {f : α → Prog ω ε σ PUnit} (I : List α → σ → Prop)
    (h : ∀ a rest, a :: rest <:+ l → Triple (I (a :: rest)) (f a) (fun _ => I rest) E) :
    Triple (I l) (l.forM f) (fun _ => I []) E := by
  induction l with
  | nil => exact Triple.pure fun _ hs => hs
  | cons a l ih =>
    change Triple _ (f a >>= fun _ => l.forM f) _ _
    exact (h a l (List.suffix_refl _)).bind fun _ => ih fun b rest hb => h b rest (hb.trans (List.suffix_cons a l))

/-- a loop with an accumulator -/
theorem Triple.foldlM {l : List α} {f : β → α → Prog ω ε σ β} (I : List α → β → σ → Prop)
    (h : ∀ b a rest, a :: rest <:+ l → Triple (I (a :: rest) b) (f b a) (I rest) E) (b : β) :
    Triple (I l b) (l.foldlM f b) (I []) E := by
  induction l generalizing b with
  | nil => exact Triple.pure fun _ hs => hs
  | cons a l ih =>
    rw [List.foldlM_cons]
    exact (h b a l (List.suffix_refl _)).bind fun b' =>
      ih (fun b a rest hb => h b a rest (hb.trans (List.suffix_cons _ l))) b'

/-- a loop that collects its results, with an invariant over the elements still to come and the results so far -/
theorem Triple.mapM_inv {l : List α} {f : α → Prog ω ε σ β} (I : List α → List β → σ → Prop)
    (h : ∀ a rest bs, a :: rest <:+ l → Triple (I (a :: rest) bs) (f a) (fun b => I rest (bs ++ [b])) E)
    (bs : List β) : Triple (I l bs) (l.mapM f) (fun bs' => I [] (bs ++ bs')) E := by
  induction l generalizing bs with
  | nil => exact Triple.pure fun _ hs => by simpa using hs
  | cons a l ih =>
    rw [List.mapM_cons]
    apply (h a l bs (List.suffix_refl _)).bind
    intro b
    apply (ih (fun a rest bs ha => h a rest bs (ha.trans (List.suffix_cons _ l))) (bs ++ [b])).bind
    intro bs'
    exact Triple.pure fun _ hs => by simpa using hs

/-- a loop that collects its results and keeps the state's invariant -/
theorem Triple.mapM {l : List α} {f : α → Prog ω ε σ β} {R : α → β → Prop}
    (h : ∀ a ∈ l, Triple P (f a) (fun b s => P s ∧ R a b) E) :
    Triple P (l.mapM f) (fun bs s => P s ∧ List.Forall₂ R l bs) E := by
  induction l with
  | nil => exact Triple.pure fun _ hs => ⟨hs, List.Forall₂.nil⟩
  | cons a l ih =>
    rw [List.mapM_cons]
    apply (h a List.mem_cons_self).bind
    intro b
    refine Triple.bind (Q := fun bs s => (P s ∧ R a b) ∧ List.Forall₂ R l bs) ?_ fun bs => ?_
    · intro w s hs
      have := ih (fun a ha => h a (List.mem_cons_of_mem _ ha)) w s hs.1
      rcases hr : (l.mapM f : Prog ω ε σ (List β)).exec w s with ⟨e | bs, w', s'⟩
      · rw [hr] at this; exact this
      · rw [hr] at this; exact ⟨⟨this.1, hs.2⟩, this.2⟩
    · exact Triple.pure fun _ hs => ⟨hs.1.1, List.Forall₂.cons hs.1.2 hs.2⟩

end Triple

/-! ## Exceptions -/

section ThrowsOnly

variable {ω ε σ τ α β : Type}

/-- from any state, m throws nothing but what E allows -/
abbrev ThrowsOnly (E : ε → Prop) (m : Prog ω ε σ α) : Prop := Triple (fun _ => True) m (fun _ _ => True) fun e _ => E e

variable {E : ε → Prop} {m : Prog ω ε σ α}

theorem ThrowsOnly.pure (a : α) : ThrowsOnly E (pure a : Prog ω ε σ α) := Triple.pure fun _ _ => trivial

theorem ThrowsOnly.throw {e : ε} (h : E e) : ThrowsOnly E (throw e : Prog ω ε σ α) := Triple.throw fun _ _ => h

theorem ThrowsOnly.modify (f : σ → σ) : ThrowsOnly E (Prog.modify f : Prog ω ε σ Unit) := Triple.modify fun _ _ => trivial

theorem ThrowsOnly.world (f : ω → α × ω) : ThrowsOnly E (Prog.world f : Prog ω ε σ α) := Triple.world fun _ _ _ => trivial

theorem ThrowsOnly.ofExcept {r : Except ε α} (h : ∀ e, r = .error e → E e) :
    ThrowsOnly E (Prog.ofExcept r : Prog ω ε σ α) := Triple.ofExcept (fun _ _ _ _ => trivial) fun e _ he _ => h e he

theorem ThrowsOnly.bind {f : α → Prog ω ε σ β} (hm : ThrowsOnly E m) (hf : ∀ a, ThrowsOnly E (f a)) :
    ThrowsOnly E (m >>= f) := Triple.bind hm hf

theorem ThrowsOnly.zoom (l : Lens σ τ) {m : Prog ω ε τ α} (h : ThrowsOnly E m) : ThrowsOnly E (Prog.zoom l m) :=
  (Triple.zoom_frame l h (F := fun _ => True) fun _ _ h => h).conseq (fun _ h => ⟨h, h⟩) (fun _ _ _ => trivial)
    fun _ _ h => h.1

theorem ThrowsOnly.forM {l : List α} {f : α → Prog ω ε σ PUnit} (h : ∀ a ∈ l, ThrowsOnly E (f a)) :
    ThrowsOnly E (l.forM f) := Triple.forM (fun _ _ => True) fun a _ hm => h a (hm.subset List.mem_cons_self)

theorem ThrowsOnly.mapM {l : List α} {f : α → Prog ω ε σ β} (h : ∀ a ∈ l, ThrowsOnly E (f a)) :
    ThrowsOnly E (l.mapM f) :=
  Triple.mapM_inv (fun _ _ _ => True) (fun a _ _ hm => h a (hm.subset List.mem_cons_self)) []

theorem ThrowsOnly.outcome (h : ThrowsOnly E m) {w : ω} {s : σ} {e : ε} (he : (m.exec w s).1 = .error e) : E e :=
  Triple.error h trivial (Prog.exec_eq he)

end ThrowsOnly

/-! ## Refinement of an abstract machine -/

section Refines

variable {ω ε σ α β V : Type}

/-- what m does to a state is, seen through R, a step of an abstract machine -/
def Refines (R : V → σ → Prop) (v : V) (m : Prog ω ε σ α) (Q : α → V → Prop) (E : ε → σ → Prop) : Prop :=
  Triple (R v) m (fun a s => ∃ v', Q a v' ∧ R v' s) E

variable {R : V → σ → Prop} {v : V} {m : Prog ω ε σ α} {Q Q' : α → V → Prop} {E E' : ε → σ → Prop}

theorem Refines.conseq (h : Refines R v m Q E) (hs : ∀ a v', Q a v' → Q' a v')
    (hE : ∀ e s, E e s → E' e s) : Refines R v m Q' E' :=
  Triple.conseq h (fun _ => id) (fun a _ ⟨v', h1, h2⟩ => ⟨v', hs a v' h1, h2⟩) hE

theorem Refines.post (h : Refines R v m Q E) (hs : ∀ a v', Q a v' → Q' a v') : Refines R v m Q' E :=
  h.conseq hs fun _ _ => id

/-- what every related state tells about the abstract state may be assumed -/
theorem Refines.assume {p : Prop} (hp : ∀ s, R v s → p) (h : p → Refines R v m Q E) : Refines R v m Q E :=
  fun w s hs => h (hp s hs) w s hs

theorem Refines.pure {a : α} (h : Q a v) : Refines R v (pure a : Prog ω ε σ α) Q E :=
  Triple.pure fun _ hs => ⟨v, h, hs⟩

theorem Refines.bind {f : α → Prog ω ε σ β} {T : β → V → Prop} (hm : Refines R v m Q E)
    (hf : ∀ a v', Q a v' → Refines R v' (f a) T E) : Refines R v (m >>= f) T E :=
  Triple.bind hm fun a => Triple.exists_pre fun v' => Triple.of_pure fun h => hf a v' h

/-- a loop that refines a loop of the abstract machine, by an invariant over the elements still to come -/
theorem Refines.forM {l : List α} {f : α → Prog ω ε σ PUnit} (I : List α → V → Prop)
    (h : ∀ a rest v, a :: rest <:+ l → I (a :: rest) v → Refines R v (f a) (fun _ => I rest) E) (hv : I l v) :
    Refines R v (l.forM f) (fun _ => I []) E := by
  induction l generalizing v with
  | nil => exact Refines.pure hv
  | cons a l ih =>
    change Refines R v (f a >>= fun _ => l.forM f) _ _
    exact (h a l v (List.suffix_refl _) hv).bind fun _ v' hv' =>
      ih (fun b rest v hb => h b rest v (hb.trans (List.suffix_cons a l))) hv'

/-- the same with an accumulator -/
theorem Refines.foldlM {l : List α} {f : β → α → Prog ω ε σ β} (I : List α → β → V → Prop)
    (h : ∀ b a rest v, a :: rest <:+ l → I (a :: rest) b v → Refines R v (f b a) (I rest) E) (b : β) (hv : I l b v) :
    Refines R v (l.foldlM f b) (I []) E := by
  induction l generalizing b v with
  | nil => exact Refines.pure hv
  | cons a l ih =>
    rw [List.foldlM_cons]
    exact (h b a l v (List.suffix_refl _) hv).bind fun b' v' hv' =>
      ih (fun b a rest v hb => h b a rest v (hb.trans (List.suffix_cons _ l))) b' hv'

end Refines

end PathOram.Lib
