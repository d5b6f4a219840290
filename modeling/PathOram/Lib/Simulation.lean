/-
Simulation of programs that draw on a world.

`Simulates R m m'`: from states that R relates, whatever the world is for m, there is a world for m' in which it has the
same outcome and reaches a related state. Programs use a finite part of their world, so the world for m' may be chosen to
leave any given world behind; this is what lets programs be composed (`Simulates.bind`).

- `Simulates.world`: a question that m' can have answered as m has.
- `Simulates.of_exec`: a program that leaves the world alone.
- `Simulates.zoom`: programs over parts of the states.
- `Simulates.forM`, `Simulates.foldlM`, `Simulates.mapM`: loops.
- `outcomes_subset`: **what m may do from a state, m' may do from a related one.**
-/
import PathOram.Lib.Prog

namespace PathOram.Lib

variable {ω ε σ σ' τ τ' α β : Type}

/-- from s and s', every outcome of m is one of m', which reaches a related state and leaves whatever world it is to leave -/
def MatchesAt (R : σ → σ' → Prop) (m : Prog ω ε σ α) (m' : Prog ω ε σ' α) (s : σ) (s' : σ') : Prop :=
  ∀ w, ∃ s₁', R (m.exec w s).2.2 s₁' ∧ ∀ t, ∃ w', m'.exec w' s' = ((m.exec w s).1, t, s₁')

def Simulates (R : σ → σ' → Prop) (m : Prog ω ε σ α) (m' : Prog ω ε σ' α) : Prop :=
  ∀ s s', R s s' → MatchesAt R m m' s s'

/-- the outcomes that a program may have from a state -/
def Prog.outcomes (m : Prog ω ε σ α) (s : σ) : Set (Except ε α) := {r | ∃ w, (m.exec w s).1 = r}

variable {R : σ → σ' → Prop} {m : Prog ω ε σ α} {m' : Prog ω ε σ' α}

/-- **What m may do, m' may do.** -/
theorem outcomes_subset {s : σ} {s' : σ'} (h : MatchesAt R m m' s s') : m.outcomes s ⊆ m'.outcomes s' := by
  rintro r ⟨w, rfl⟩
  obtain ⟨s₁', -, hworld⟩ := h w
  obtain ⟨w', hexec⟩ := hworld w
  exact ⟨w', congrArg Prod.fst hexec⟩

/-! ## Statements -/

theorem Simulates.pure (a : α) : Simulates R (pure a : Prog ω ε σ α) (pure a : Prog ω ε σ' α) :=
  fun _ s' h _ => ⟨s', h, fun t => ⟨t, rfl⟩⟩

theorem Simulates.throw (e : ε) : Simulates R (throw e : Prog ω ε σ α) (throw e : Prog ω ε σ' α) :=
  fun _ s' h _ => ⟨s', h, fun t => ⟨t, rfl⟩⟩

theorem Simulates.ofExcept (r : Except ε α) :
    Simulates R (Prog.ofExcept r : Prog ω ε σ α) (Prog.ofExcept r : Prog ω ε σ' α) :=
  fun _ s' h _ => ⟨s', h, fun t => ⟨t, rfl⟩⟩

theorem Simulates.modify {f : σ → σ} {f' : σ' → σ'} (h : ∀ s s', R s s' → R (f s) (f' s')) :
    Simulates R (Prog.modify f : Prog ω ε σ Unit) (Prog.modify f' : Prog ω ε σ' Unit) :=
  fun s s' hs _ => ⟨f' s', h s s' hs, fun t => ⟨t, rfl⟩⟩

/-- a question to the world that may have the same answers -/
theorem Simulates.world {f f' : ω → α × ω} (h : ∀ w t, ∃ w', f' w' = ((f w).1, t)) :
    Simulates R (Prog.world f : Prog ω ε σ α) (Prog.world f' : Prog ω ε σ' α) := by
  intro s s' hs w
  refine ⟨s', hs, fun t => ?_⟩
  obtain ⟨w', hw⟩ := h w t
  refine ⟨w', ?_⟩
  rw [Prog.exec_world, Prog.exec_world, hw]

/-- a program that leaves the world alone simulates itself -/
theorem Simulates.of_exec {m : Prog ω ε σ α} {f : σ → Except ε α × σ} (h : ∀ w s, m.exec w s = ((f s).1, w, (f s).2)) :
    Simulates Eq m m := by
  rintro s _ rfl w
  rw [h w s]
  exact ⟨_, rfl, fun t => ⟨t, h t s⟩⟩

/-- what follows a reading may depend on what was read -/
theorem Simulates.read_bind {f : σ → Prog ω ε σ α} {f' : σ' → Prog ω ε σ' α}
    (h : ∀ s s', R s s' → MatchesAt R (f s) (f' s') s s') : Simulates R (Prog.read >>= f) (Prog.read >>= f') := by
  intro s s' hs w
  have hread : (Prog.read >>= f).exec w s = (f s).exec w s := Prog.exec_bind_ok (Prog.exec_read w s)
  have hread' : ∀ w, (Prog.read >>= f').exec w s' = (f' s').exec w s' := fun w => Prog.exec_bind_ok (Prog.exec_read w s')
  obtain ⟨s₁', hR, hworld⟩ := h s s' hs w
  rw [hread]
  refine ⟨s₁', hR, fun t => ?_⟩
  obtain ⟨w', hexec⟩ := hworld t
  exact ⟨w', (hread' w').trans hexec⟩

theorem Simulates.bind {f : α → Prog ω ε σ β} {f' : α → Prog ω ε σ' β} (hm : Simulates R m m')
    (hf : ∀ a, Simulates R (f a) (f' a)) : Simulates R (m >>= f) (m' >>= f') := by
  intro s s' hs w
  obtain ⟨s₁', hR, hworld⟩ := hm s s' hs w
  rcases hr : m.exec w s with ⟨e | a, w₁, s₁⟩
  · rw [hr] at hR hworld
    rw [Prog.exec_bind_error hr]
    refine ⟨s₁', hR, fun t => ?_⟩
    obtain ⟨w', hexec⟩ := hworld t
    exact ⟨w', Prog.exec_bind_error hexec⟩
  · rw [hr] at hR hworld
    rw [Prog.exec_bind_ok hr]
    obtain ⟨s₂', hR₂, hworld₂⟩ := hf a s₁ s₁' hR w₁
    refine ⟨s₂', hR₂, fun t => ?_⟩
    -- the second program's world is what the first one is to leave
    obtain ⟨w₂, hexec₂⟩ := hworld₂ t
    obtain ⟨w', hexec⟩ := hworld w₂
    exact ⟨w', (Prog.exec_bind_ok hexec).trans hexec₂⟩

theorem Simulates.ite {c : Prop} [Decidable c] {n : Prog ω ε σ α} {n' : Prog ω ε σ' α} (ht : Simulates R m m')
    (hf : Simulates R n n') : Simulates R (if c then m else n) (if c then m' else n') := by
  split_ifs
  · exact ht
  · exact hf

/-- programs over parts of the states, which R relates by a relation of their own -/
theorem Simulates.zoom {T : τ → τ' → Prop} {l : Lens σ τ} {l' : Lens σ' τ'} {m : Prog ω ε τ α} {m' : Prog ω ε τ' α}
    (h : Simulates T m m') (hget : ∀ s s', R s s' → T (l.get s) (l'.get s'))
    (hset : ∀ s s' t t', R s s' → T t t' → R (l.set t s) (l'.set t' s')) :
    Simulates R (Prog.zoom l m) (Prog.zoom l' m') := by
  intro s s' hs w
  obtain ⟨t', hT, hworld⟩ := h _ _ (hget s s' hs) w
  refine ⟨l'.set t' s', hset s s' _ t' hs hT, fun t => ?_⟩
  obtain ⟨w', hexec⟩ := hworld t
  refine ⟨w', ?_⟩
  rw [Prog.exec_zoom, hexec]
  rfl

theorem Simulates.attempt (h : Simulates R m m') : Simulates R (Prog.attempt m) (Prog.attempt m') := by
  intro s s' hs w
  obtain ⟨s₁', hR, hworld⟩ := h s s' hs w
  refine ⟨s₁', hR, fun t => ?_⟩
  obtain ⟨w', hexec⟩ := hworld t
  refine ⟨w', ?_⟩
  rw [Prog.exec_attempt, hexec]
  rfl

/-! ## Loops -/

theorem Simulates.forM {l : List α} {f : α → Prog ω ε σ PUnit} {f' : α → Prog ω ε σ' PUnit}
    (h : ∀ a ∈ l, Simulates R (f a) (f' a)) : Simulates R (l.forM f) (l.forM f') := by
  induction l with
  | nil => exact Simulates.pure _
  | cons a l ih =>
    change Simulates R (f a >>= fun _ => l.forM f) (f' a >>= fun _ => l.forM f')
    exact (h a List.mem_cons_self).bind fun _ => ih fun b hb => h b (List.mem_cons_of_mem _ hb)

theorem Simulates.foldlM {l : List α} {f : β → α → Prog ω ε σ β} {f' : β → α → Prog ω ε σ' β}
    (h : ∀ b, ∀ a ∈ l, Simulates R (f b a) (f' b a)) (b : β) : Simulates R (l.foldlM f b) (l.foldlM f' b) := by
  induction l generalizing b with
  | nil => exact Simulates.pure _
  | cons a l ih =>
    rw [List.foldlM_cons, List.foldlM_cons]
    exact (h b a List.mem_cons_self).bind fun b' => ih (fun b a ha => h b a (List.mem_cons_of_mem _ ha)) b'

theorem Simulates.mapM {l : List α} {f : α → Prog ω ε σ β} {f' : α → Prog ω ε σ' β}
    (h : ∀ a ∈ l, Simulates R (f a) (f' a)) : Simulates R (l.mapM f) (l.mapM f') := by
  induction l with
  | nil => exact Simulates.pure _
  | cons a l ih =>
    rw [List.mapM_cons, List.mapM_cons]
    apply (h a List.mem_cons_self).bind
    intro b
    exact (ih fun a ha => h a (List.mem_cons_of_mem _ ha)).bind fun bs => Simulates.pure _

end PathOram.Lib
