/-
What a position map does, whatever it is kept in.

- `LawfulMap`: the contract. A map of n entries returns the leaf last written, or throws an error; it is told apart from
  its contents by the record of its calls, which an adapter may or may not keep.
- `Knows`: every entry is written, as it is after the construction of an ORAM.
- `inMemoryPositionMap_lawful`: the array is lawful and never throws for a block below its capacity.
-/
import PathOram.PositionMapAdapter

namespace PathOram

open Lib

/-- a map of n entries that returns what was last written, or throws -/
structure LawfulMap {μ : Type} (M : PositionMapAdapter μ) (n : ℕ) where
  /-- the entries and the calls so far that a state may stand for -/
  Rep : (ℕ → Option ℕ) → List MapCall → μ → Prop
  err : Exception → Prop
  get : ∀ pos calls i leaf, i < n → pos i = some leaf → Triple (Rep pos calls) (M.get i)
    (fun r m => r = leaf ∧ Rep pos (calls ++ [.get i leaf]) m) (fun e _ => err e)
  set : ∀ pos calls i leaf, i < n → leaf < 2 ^ 64 → Triple (Rep pos calls) (M.set i leaf)
    (fun _ m => Rep (Function.update pos i (some leaf)) (calls ++ [.set i leaf]) m) (fun e _ => err e)

namespace LawfulMap

variable {μ : Type} {M : PositionMapAdapter μ} {n : ℕ} (L : LawfulMap M n)

/-- every entry below n is written -/
def Knows (pos : ℕ → ℕ) (calls : List MapCall) (m : μ) : Prop :=
  ∃ p, L.Rep p calls m ∧ ∀ i < n, p i = some (pos i)

theorem get_knows (pos : ℕ → ℕ) (calls : List MapCall) {i : ℕ} (hi : i < n) :
    Triple (L.Knows pos calls) (M.get i) (fun r m => r = pos i ∧ L.Knows pos (calls ++ [.get i (pos i)]) m)
      (fun e _ => L.err e) := by
  rintro w m ⟨p, hp, hpos⟩
  exact ((L.get p calls i (pos i) hi (hpos i hi)).post fun r m' hm => ⟨hm.1, p, hm.2, hpos⟩) w m hp

theorem set_knows (pos : ℕ → ℕ) (calls : List MapCall) {i leaf : ℕ} (hi : i < n) (hl : leaf < 2 ^ 64) :
    Triple (L.Knows pos calls) (M.set i leaf)
      (fun _ m => L.Knows (Function.update pos i leaf) (calls ++ [.set i leaf]) m) (fun e _ => L.err e) := by
  rintro w m ⟨p, hp, hpos⟩
  refine ((L.set p calls i leaf hi hl).post fun _ m' hm => ⟨_, hm, fun j hj => ?_⟩) w m hp
  rcases eq_or_ne j i with rfl | hne
  · simp
  · simp [hne, hpos j hj]

end LawfulMap

/-! ## The array -/

theorem checkCapacity_triple {σ : Type} {P : σ → Prop} {E : Exception → σ → Prop} {capacity block : ℕ}
    (h : block < capacity) : Triple P (checkCapacity capacity block : Run σ Unit) (fun _ => P) E :=
  Triple.ite (fun h' => absurd h (not_lt.2 h')) fun _ => Triple.pure fun _ hs => hs

/-- reading the array changes nothing, also when it throws -/
theorem exec_arrayGet (capacity i : ℕ) (w : World) (map : PositionArray capacity) :
    Prog.exec ((inMemoryPositionMap capacity).get i) w map =
      (if capacity ≤ i then .error (.blockOutOfBound i capacity) else .ok (map[i]?.getD 0), w, map) := by
  unfold inMemoryPositionMap checkCapacity
  dsimp only
  split_ifs <;> rfl

theorem exec_arraySet (capacity i leaf : ℕ) (w : World) (map : PositionArray capacity) :
    Prog.exec ((inMemoryPositionMap capacity).set i leaf) w map =
      if capacity ≤ i then (.error (.blockOutOfBound i capacity), w, map) else (.ok (), w, map.setIfInBounds i leaf) := by
  unfold inMemoryPositionMap checkCapacity
  dsimp only
  split_ifs <;> rfl

/-- **The in-memory map.** The array is a lawful map of as many entries as fit, and it does not throw. -/
def inMemoryPositionMap_lawful {capacity n : ℕ} (h : n ≤ capacity) : LawfulMap (inMemoryPositionMap capacity) n where
  Rep pos _ map := ∀ i leaf, i < n → pos i = some leaf → map[i]? = some leaf
  err _ := False
  get pos calls i leaf hi hp := by
    apply (checkCapacity_triple (hi.trans_le h)).bind
    intro _
    refine Triple.bind (Q := fun a map => a = map ∧ ∀ i leaf, i < n → pos i = some leaf → map[i]? = some leaf)
      (Triple.read fun map hm => ⟨rfl, hm⟩) fun a => Triple.pure fun map hm => ?_
    obtain ⟨rfl, hm⟩ := hm
    exact ⟨by rw [hm i leaf hi hp]; rfl, hm⟩
  set pos calls i leaf hi _ := by
    apply (checkCapacity_triple (hi.trans_le h)).bind
    intro _
    apply Triple.modify
    intro map hm j leaf' hj hp
    rw [Vector.getElem?_setIfInBounds]
    rcases eq_or_ne j i with rfl | hne
    · rw [Function.update_self] at hp
      cases hp
      simp [hj.trans_le h]
    · rw [if_neg (Ne.symm hne)]
      rw [Function.update_of_ne hne] at hp
      exact hm j leaf' hj hp

end PathOram
