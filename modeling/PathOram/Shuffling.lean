/-
The order in which `getAll` returns the stash and `load` meets its records.

Both run the same Fisher-Yates loop, `shuffle`, on the indices they draw. `Lib.Shuffle` says what the loop makes of a
sequence of indices.

- `shuffle_exec`: what a run of the loop computes, and what it draws.
- `shuffle_bijective`: **every order in exactly one way**, for up to 2^32 - 1 elements.
- `getAll_exec`: the stash is shuffled from the order in which its hash table is iterated.
-/
import PathOram.StashAdapter

namespace PathOram

open Lib

/-- the indices that the loop draws for n elements: each is i + getRandomUInt(n - i) -/
def drawnChoices (n : ℕ) (rand : ℕ → ℕ) : List ℕ := (List.range (n - 1)).map fun i => i + rand i % 2 ^ 32 % (n - i)

section

variable {α σ : Type}

/-- the rounds from i on -/
theorem shuffleFrom_exec (n : ℕ) (w : World) (s : σ) (m i : ℕ) (l : List α) :
    ((List.range' i m).foldlM (fun l i => do
      let j ← getRandomUInt (n - i)
      return swapAt l i (i + j)) l : Run σ (List α)).exec { w with rand := fun k => w.rand (i + k) } s =
      (.ok (shuffleFrom i ((List.range' i m).map fun i => i + w.rand i % 2 ^ 32 % (n - i)) l),
        { w with rand := fun k => w.rand (i + m + k) }, s) := by
  induction m generalizing i l with
  | zero => rfl
  | succ m ih =>
    rw [List.range'_succ, List.foldlM_cons, List.map_cons, shuffleFrom]
    have hdraw : (do
        let j ← getRandomUInt (n - i)
        return swapAt l i (i + j) : Run σ (List α)).exec { w with rand := fun k => w.rand (i + k) } s =
        (.ok (swapAt l i (i + w.rand i % 2 ^ 32 % (n - i))), { w with rand := fun k => w.rand (i + 1 + k) }, s) := by
      have hnext : (fun k => w.rand (i + (k + 1))) = fun k => w.rand (i + 1 + k) := by
        funext k
        congr 1
        omega
      rw [← hnext]
      rfl
    rw [Prog.exec_bind_ok hdraw, ih (i + 1), show i + 1 + m = i + (m + 1) by omega]

/-- **A run of the loop.** -/
theorem shuffle_exec {l : List α} (hlen : l.length < 2 ^ 32) (w : World) (s : σ) :
    (shuffle l : Run σ (List α)).exec w s = (.ok (shuffleBy (drawnChoices l.length w.rand) l),
      { w with rand := fun k => w.rand (l.length - 1 + k) }, s) := by
  have hloop := shuffleFrom_exec l.length w s (l.length - 1) 0 l
  simp only [Nat.zero_add] at hloop
  unfold shuffle
  rw [Nat.mod_eq_of_lt hlen, shuffleBy, drawnChoices, List.range_eq_range']
  dsimp only
  split_ifs with h
  · rw [List.range_eq_range']
    exact hloop
  · have hshort : l.length - 1 = 0 := by omega
    rw [hshort] at hloop ⊢
    exact hloop

/-- no index leaves the vector -/
theorem drawnChoices_mem (n : ℕ) (rand : ℕ → ℕ) : drawnChoices n rand ∈ choices n := by
  refine ⟨by simp [drawnChoices], fun i hi => ?_⟩
  have hlt : i < n - 1 := by simpa [drawnChoices] using hi
  have hmod : rand i % 2 ^ 32 % (n - i) < n - i := Nat.mod_lt _ (by omega)
  simp only [drawnChoices, List.getElem_map, List.getElem_range]
  omega

/-- every sequence of choices is drawn from some stream -/
theorem exists_drawnChoices {n : ℕ} (hn : n < 2 ^ 32) {js : List ℕ} (hjs : js ∈ choices n) :
    drawnChoices n (fun i => js.getD i 0 - i) = js := by
  obtain ⟨hlen, hchoice⟩ := hjs
  apply List.ext_getElem (by simp [drawnChoices, hlen])
  intro i h1 h2
  obtain ⟨hle, hlt⟩ := hchoice i h2
  have hget : js.getD i 0 = js[i] := by simp [h2]
  simp only [drawnChoices, List.getElem_map, List.getElem_range, hget]
  rw [Nat.mod_eq_of_lt (show js[i] - i < 2 ^ 32 by omega), Nat.mod_eq_of_lt (by omega)]
  omega

/-- **Every order in exactly one way.** The choices that the loop may draw for distinct elements correspond to their
permutations. What it draws is such a sequence, the result is the permutation of this sequence, and every such sequence is
drawn in some world. -/
theorem shuffle_bijective {l : List α} (hl : l.Nodup) (hlen : l.length < 2 ^ 32) :
    Set.BijOn (fun js => shuffleBy js l) (choices l.length) {p | p.Perm l} ∧
    (∀ (w : World) (s : σ), drawnChoices l.length w.rand ∈ choices l.length ∧
      ∃ w', (shuffle l : Run σ (List α)).exec w s = (.ok (shuffleBy (drawnChoices l.length w.rand) l), w', s)) ∧
    ∀ js ∈ choices l.length, ∃ rand, drawnChoices l.length rand = js :=
  ⟨shuffleBy_bijOn hl, fun w s => ⟨drawnChoices_mem _ _, _, shuffle_exec hlen w s⟩,
    fun _ hjs => ⟨_, exists_drawnChoices hlen hjs⟩⟩

theorem shuffle_bijective_three :
    Set.BijOn (fun js => shuffleBy js ["a", "b", "c"]) (choices 3) {p | p.Perm ["a", "b", "c"]} :=
  (shuffle_bijective (σ := Unit) (l := ["a", "b", "c"]) (by decide) (by decide)).1

end

/-- the order in which `getAll` returns the stash -/
theorem getAll_exec (w : World) (stash : Stash) (hsize : stash.size < 2 ^ 32) :
    ∃ w', InMemoryStashAdapter.getAll.exec w stash =
      (.ok (shuffleBy (drawnChoices stash.size w.rand) (arrange (w.iter 0) stash.toList)), w', stash) := by
  have hlen : (arrange (w.iter 0) stash.toList).length = stash.size := by
    rw [(arrange_perm _ _).length_eq, UnorderedMap.length_toList]
  have hshuffle := shuffle_exec (hlen ▸ hsize) { w with iter := fun n => w.iter (n + 1) } stash
  rw [hlen] at hshuffle
  exact ⟨_, hshuffle⟩

end PathOram
