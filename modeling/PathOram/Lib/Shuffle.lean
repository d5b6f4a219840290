/-
The Fisher-Yates shuffle.

The i-th round swaps the i-th element of a list with the one at an index that is chosen between i and the end. `choices n`
are the sequences of such indices for a list of n elements, `shuffleBy` is what the rounds make of a list.

- `swapAt_perm`: a swap permutes the list.
- `shuffleBy_bijOn`: **every order in exactly one way.** On a list of distinct elements the sequences of choices correspond
  to the permutations.
-/
import Mathlib.Tactic

namespace PathOram.Lib

variable {α : Type}

/-- swap two elements of a list, nothing if an index is past its end -/
def swapAt (l : List α) (i j : ℕ) : List α :=
  if h : i < l.length ∧ j < l.length then (l.set i (l.get ⟨j, h.2⟩)).set j (l.get ⟨i, h.1⟩) else l

theorem swapAt_perm (l : List α) (i j : ℕ) : (swapAt l i j).Perm l := by
  unfold swapAt
  split_ifs with h
  · exact List.set_set_perm h.1 h.2
  · exact List.Perm.refl l

theorem swapAt_self (l : List α) (i : ℕ) : swapAt l i i = l := by
  unfold swapAt
  split_ifs with h
  · simp
  · rfl

/-- a swap behind a prefix -/
theorem swapAt_append (pre l : List α) (i j : ℕ) :
    swapAt (pre ++ l) (pre.length + i) (pre.length + j) = pre ++ swapAt l i j := by
  unfold swapAt
  by_cases h : i < l.length ∧ j < l.length
  · have h' : pre.length + i < (pre ++ l).length ∧ pre.length + j < (pre ++ l).length := by simpa using h
    rw [dif_pos h, dif_pos h']
    simp [List.getElem_append_right]
  · have h' : ¬ (pre.length + i < (pre ++ l).length ∧ pre.length + j < (pre ++ l).length) := by simpa using h
    rw [dif_neg h, dif_neg h']

/-- a swap with the first element brings any element to the front -/
theorem swapAt_zero (l : List α) {j : ℕ} (hj : j < l.length) :
    ∃ rest, swapAt l 0 j = l.get ⟨j, hj⟩ :: rest ∧ rest.length + 1 = l.length := by
  have hpos : 0 < l.length := by omega
  have hlen : (swapAt l 0 j).length = l.length := (swapAt_perm l 0 j).length_eq
  cases hs : swapAt l 0 j with
  | nil =>
    rw [hs] at hlen
    simp at hlen
    omega
  | cons a rest =>
    refine ⟨rest, ?_, by rw [← hlen, hs]; rfl⟩
    have hhead : (swapAt l 0 j)[0]? = some (l.get ⟨j, hj⟩) := by
      unfold swapAt
      rw [dif_pos ⟨hpos, hj⟩]
      rcases Nat.eq_zero_or_pos j with rfl | hjpos
      · simp
      · rw [List.getElem?_set_ne (by omega)]
        simp [hpos]
    rw [hs] at hhead
    rw [Option.some.inj hhead]

/-- the rounds from i on, with the indices they swap with -/
def shuffleFrom : ℕ → List ℕ → List α → List α
  | _, [], l => l
  | i, j :: js, l => shuffleFrom (i + 1) js (swapAt l i j)

/-- the shuffle with a sequence of choices -/
def shuffleBy (js : List ℕ) (l : List α) : List α := shuffleFrom 0 js l

/-- the choices that the rounds from i on may make for a list of n elements -/
def choicesFrom (i n : ℕ) : Set (List ℕ) :=
  {js | i + js.length = max i (n - 1) ∧ ∀ k (h : k < js.length), i + k ≤ js[k] ∧ js[k] < n}

/-- the sequences (j₀, …, jₙ₋₂) with i ≤ jᵢ < n -/
def choices (n : ℕ) : Set (List ℕ) := {js | js.length = n - 1 ∧ ∀ i (h : i < js.length), i ≤ js[i] ∧ js[i] < n}

/-- no round is left when at most one element is -/
theorem mem_choicesFrom_of_le {i n : ℕ} (h : n ≤ i + 1) {js : List ℕ} : js ∈ choicesFrom i n ↔ js = [] := by
  constructor
  · rintro ⟨hlen, -⟩
    exact List.eq_nil_of_length_eq_zero (by omega)
  · rintro rfl
    exact ⟨by simp; omega, by simp⟩

/-- the first round, and the others -/
theorem mem_choicesFrom_cons {i n : ℕ} (h : i + 1 < n) {js : List ℕ} :
    js ∈ choicesFrom i n ↔ ∃ j js', js = j :: js' ∧ i ≤ j ∧ j < n ∧ js' ∈ choicesFrom (i + 1) n := by
  constructor
  · rintro ⟨hlen, hchoice⟩
    cases js with
    | nil =>
      simp at hlen
      omega
    | cons j js =>
      have hfirst := hchoice 0 (by simp)
      refine ⟨j, js, rfl, by simpa using hfirst.1, by simpa using hfirst.2, ?_, fun k hk => ?_⟩
      · simp at hlen
        omega
      · have hnext := hchoice (k + 1) (by simpa using hk)
        rw [List.getElem_cons_succ] at hnext
        exact ⟨by omega, hnext.2⟩
  · rintro ⟨j, js, rfl, hij, hjn, hlen, hchoice⟩
    refine ⟨by simp; omega, fun k hk => ?_⟩
    cases k with
    | zero => exact ⟨by simpa using hij, by simpa using hjn⟩
    | succ k =>
      rw [List.getElem_cons_succ]
      have hnext := hchoice k (by simpa using hk)
      exact ⟨by omega, hnext.2⟩

/-- with at most one element left there is one order and no choice -/
theorem shuffleFrom_bijOn_of_le {pre l : List α} (hl : l.length ≤ 1) :
    Set.BijOn (fun js => shuffleFrom pre.length js (pre ++ l)) (choicesFrom pre.length (pre.length + l.length))
      {p | ∃ q, q.Perm l ∧ p = pre ++ q} := by
  have hchoices : choicesFrom pre.length (pre.length + l.length) = {[]} := by
    ext js
    exact mem_choicesFrom_of_le (by omega)
  have horders : {p | ∃ q : List α, q.Perm l ∧ p = pre ++ q} = {pre ++ l} := by
    ext p
    match l with
    | [] => simp
    | [a] => simp
    | _ :: _ :: _ => simp at hl
  rw [hchoices, horders, Set.bijOn_singleton]
  rfl

/-- a round brings the element at the chosen index to the front of those that are left -/
theorem shuffleFrom_round (pre : List α) {l : List α} {k : ℕ} (hk : k < l.length) :
    ∃ rest, rest.length + 1 = l.length ∧ (l.get ⟨k, hk⟩ :: rest).Perm l ∧
      ∀ js, shuffleFrom pre.length ((pre.length + k) :: js) (pre ++ l) =
        shuffleFrom (pre ++ [l.get ⟨k, hk⟩]).length js ((pre ++ [l.get ⟨k, hk⟩]) ++ rest) := by
  obtain ⟨rest, hrest, hlen⟩ := swapAt_zero l hk
  refine ⟨rest, hlen, hrest ▸ swapAt_perm l 0 k, fun js => ?_⟩
  have hswap := swapAt_append pre l 0 k
  rw [Nat.add_zero] at hswap
  rw [shuffleFrom, hswap, hrest]
  simp

/-- the first choice as a position among the elements that are left -/
theorem mem_choicesFrom_round {i m : ℕ} (h : 1 < m) (js : List ℕ) :
    js ∈ choicesFrom i (i + m) ↔ ∃ k js', js = (i + k) :: js' ∧ k < m ∧ js' ∈ choicesFrom (i + 1) (i + m) := by
  rw [mem_choicesFrom_cons (by omega)]
  constructor
  · rintro ⟨j, js', rfl, hij, hjn, hjs⟩
    exact ⟨j - i, js', by rw [Nat.add_sub_cancel' hij], by omega, hjs⟩
  · rintro ⟨k, js', rfl, hk, hjs⟩
    exact ⟨i + k, js', rfl, by omega, by omega, hjs⟩

/-- the rounds that are left reach every order of the elements that are left, each in one way -/
theorem shuffleFrom_bijOn (pre : List α) {l : List α} (hl : l.Nodup) :
    Set.BijOn (fun js => shuffleFrom pre.length js (pre ++ l)) (choicesFrom pre.length (pre.length + l.length))
      {p | ∃ q, q.Perm l ∧ p = pre ++ q} := by
  induction hn : l.length generalizing pre l with
  | zero => exact hn ▸ shuffleFrom_bijOn_of_le (by omega)
  | succ n ih =>
    rcases Nat.eq_zero_or_pos n with rfl | hpos
    · exact hn ▸ shuffleFrom_bijOn_of_le (by omega)
    choose rest hlen hperm hround using fun k (hk : k < l.length) => shuffleFrom_round pre hk
    have hmem := mem_choicesFrom_round (i := pre.length) (m := n + 1) (by omega)
    have hrest : ∀ k (hk : k < l.length),
        Set.BijOn (fun js => shuffleFrom (pre ++ [l.get ⟨k, hk⟩]).length js ((pre ++ [l.get ⟨k, hk⟩]) ++ rest k hk))
          (choicesFrom (pre.length + 1) (pre.length + (n + 1)))
          {p | ∃ q, q.Perm (rest k hk) ∧ p = (pre ++ [l.get ⟨k, hk⟩]) ++ q} := by
      intro k hk
      have hnodup : (rest k hk).Nodup := (List.nodup_cons.1 ((hperm k hk).nodup_iff.2 hl)).2
      have hlength : (rest k hk).length = n := by have := hlen k hk; omega
      have h := ih (pre ++ [l.get ⟨k, hk⟩]) hnodup hlength
      have hcount : (pre ++ [l.get ⟨k, hk⟩]).length + n = pre.length + (n + 1) := by simp; omega
      rw [hcount] at h
      rwa [show (pre ++ [l.get ⟨k, hk⟩]).length = pre.length + 1 by simp] at h ⊢
    refine ⟨?_, ?_, ?_⟩
    · intro js hjs
      obtain ⟨k, js', rfl, hk, hjs'⟩ := (hmem js).1 hjs
      rw [← hn] at hk
      obtain ⟨q, hq, he⟩ := (hrest k hk).mapsTo hjs'
      refine ⟨l.get ⟨k, hk⟩ :: q, (hq.cons _).trans (hperm k hk), ?_⟩
      dsimp only at he ⊢
      rw [hround k hk, he]
      simp
    · -- the first element tells the first choice
      intro js hjs js₂ hjs₂ he
      obtain ⟨k, js', rfl, hk, hjs'⟩ := (hmem js).1 hjs
      obtain ⟨k₂, js₂', rfl, hk₂, hjs₂'⟩ := (hmem js₂).1 hjs₂
      rw [← hn] at hk hk₂
      dsimp only at he
      rw [hround k hk, hround k₂ hk₂] at he
      obtain ⟨q, -, hq⟩ := (hrest k hk).mapsTo hjs'
      obtain ⟨q₂, -, hq₂⟩ := (hrest k₂ hk₂).mapsTo hjs₂'
      have hfirst : l.get ⟨k, hk⟩ = l.get ⟨k₂, hk₂⟩ := by
        have h := (hq.symm.trans he).trans hq₂
        simp only [List.append_assoc, List.append_cancel_left_eq, List.singleton_append, List.cons.injEq] at h
        exact h.1
      have hsame : k = k₂ := by simpa using hl.get_inj_iff.1 hfirst
      subst hsame
      have hjs : js' = js₂' := (hrest k hk₂).injOn hjs' hjs₂' he
      rw [hjs]
    · rintro p ⟨q, hq, rfl⟩
      have hlength := hq.length_eq
      rw [hn] at hlength
      obtain ⟨a, q, rfl⟩ := List.exists_cons_of_length_eq_add_one hlength
      obtain ⟨⟨k, hk⟩, rfl⟩ := List.get_of_mem (hq.subset List.mem_cons_self)
      have hq' : q.Perm (rest k hk) := (hq.trans (hperm k hk).symm).cons_inv
      obtain ⟨js', hjs', he⟩ := (hrest k hk).surjOn ⟨q, hq', rfl⟩
      refine ⟨(pre.length + k) :: js', (hmem _).2 ⟨k, js', rfl, hn ▸ hk, hjs'⟩, ?_⟩
      dsimp only at he ⊢
      rw [hround k hk, he]
      simp

theorem choices_eq (n : ℕ) : choices n = choicesFrom 0 n := by
  ext js
  simp [choices, choicesFrom]

/-- **Every order in exactly one way.** On a list of distinct elements the sequences of choices correspond to the
permutations of the list. -/
theorem shuffleBy_bijOn {l : List α} (hl : l.Nodup) :
    Set.BijOn (fun js => shuffleBy js l) (choices l.length) {p | p.Perm l} := by
  have h := shuffleFrom_bijOn [] hl
  simpa [choices_eq, shuffleBy] using h

end PathOram.Lib
