/-
Greedy selection. `pick p n l` takes the first n elements of l that satisfy p and leaves the others in order; `evict`
does it for one level after the other, from the last level down to level 0, each from what the levels before it left.

- `pick_perm`, `evict_perm`: nothing is lost or duplicated.
- `pickIdx` are the indices of the elements taken, and `foldr_eraseIdx_pickIdx` says that erasing them, the last one
  first, leaves the rest.
- `evict_full`: a level that passes over an element that fits is full.
- `visits` and `evictVisits` count the elements looked at: a selection stops when it has n. The counts depend on the
  elements only through what p says of them (`evictVisits_map`).
- `evict_isLeast`: **greedy selection is optimal** when what fits on a level fits on the levels before it. A placement
  (`Legal`) fills k levels at most and places on the others only what fits on level k (`Legal.length_le`), and the
  selection does no worse for some k (`evict_length`).
-/
import Mathlib.Tactic

namespace PathOram.Lib

variable {α γ : Type}

/-! ## One level -/

/-- the first n elements that satisfy p, and the rest -/
def pick (p : α → Bool) : ℕ → List α → List α × List α
  | 0, l => ([], l)
  | _ + 1, [] => ([], [])
  | n + 1, a :: l =>
    if p a then (a :: (pick p n l).1, (pick p n l).2) else ((pick p (n + 1) l).1, a :: (pick p (n + 1) l).2)

/-- the indices of the elements that `pick` takes -/
def pickIdx (p : α → Bool) : ℕ → List α → List ℕ
  | 0, _ => []
  | _ + 1, [] => []
  | n + 1, a :: l => if p a then 0 :: (pickIdx p n l).map (· + 1) else (pickIdx p (n + 1) l).map (· + 1)

/-- the elements that `pick` looks at -/
def visits (p : α → Bool) : ℕ → List α → List α
  | 0, _ => []
  | _ + 1, [] => []
  | n + 1, a :: l => if p a then a :: visits p n l else a :: visits p (n + 1) l

variable (p : α → Bool)

theorem pick_perm (n : ℕ) (l : List α) : ((pick p n l).1 ++ (pick p n l).2).Perm l := by
  induction l generalizing n with
  | nil => cases n <;> exact List.Perm.refl _
  | cons a l ih =>
    cases n with
    | zero => exact List.Perm.refl _
    | succ n =>
      rw [pick]
      split_ifs with h
      · exact (ih n).cons a
      · exact List.perm_middle.trans ((ih (n + 1)).cons a)

theorem pick_fits {n : ℕ} {l : List α} {a : α} (h : a ∈ (pick p n l).1) : p a = true := by
  induction l generalizing n with
  | nil => cases n <;> simp [pick] at h
  | cons b l ih =>
    cases n with
    | zero => simp [pick] at h
    | succ n =>
      rw [pick] at h
      split_ifs at h with hb
      · rcases List.mem_cons.1 h with rfl | h
        · exact hb
        · exact ih h
      · exact ih h

theorem length_pick_le (n : ℕ) (l : List α) : (pick p n l).1.length ≤ n := by
  induction l generalizing n with
  | nil => cases n <;> simp [pick]
  | cons a l ih =>
    cases n with
    | zero => simp [pick]
    | succ n =>
      rw [pick]
      split_ifs
      · simpa using ih n
      · exact ih (n + 1)

/-- erase the elements taken, the last one first: the rest is left -/
theorem foldr_eraseIdx_pickIdx (n : ℕ) (l : List α) :
    (pickIdx p n l).foldr (fun i l => l.eraseIdx i) l = (pick p n l).2 := by
  have hcons : ∀ (a : α) (is : List ℕ) (l : List α),
      (is.map (· + 1)).foldr (fun i l => l.eraseIdx i) (a :: l) = a :: is.foldr (fun i l => l.eraseIdx i) l := by
    intro a is l
    induction is with
    | nil => rfl
    | cons i is ih => rw [List.map_cons, List.foldr_cons, ih, List.eraseIdx_cons_succ, List.foldr_cons]
  induction l generalizing n with
  | nil => cases n <;> rfl
  | cons a l ih =>
    cases n with
    | zero => rfl
    | succ n =>
      rw [pickIdx, pick]
      split_ifs
      · rw [List.foldr_cons, hcons, ih, List.eraseIdx_cons_zero]
      · rw [hcons, ih]

theorem pickIdx_sorted (n : ℕ) (l : List α) : (pickIdx p n l).Pairwise (· < ·) := by
  have hmap : ∀ is : List ℕ, is.Pairwise (· < ·) → (is.map (· + 1)).Pairwise (· < ·) := fun is h =>
    List.pairwise_map.2 (h.imp fun h => Nat.succ_lt_succ h)
  induction l generalizing n with
  | nil => cases n <;> exact List.Pairwise.nil
  | cons a l ih =>
    cases n with
    | zero => exact List.Pairwise.nil
    | succ n =>
      rw [pickIdx]
      split_ifs
      · refine List.Pairwise.cons (fun i hi => ?_) (hmap _ (ih n))
        obtain ⟨j, _, rfl⟩ := List.mem_map.1 hi
        exact Nat.succ_pos j
      · exact hmap _ (ih (n + 1))

theorem visits_subset {n : ℕ} {l : List α} {a : α} (h : a ∈ visits p n l) : a ∈ l := by
  induction l generalizing n with
  | nil => cases n <;> simp [visits] at h
  | cons b l ih =>
    cases n with
    | zero => simp [visits] at h
    | succ n =>
      rw [visits] at h
      split_ifs at h
      all_goals
        rcases List.mem_cons.1 h with rfl | h
        · exact List.mem_cons_self
        · exact List.mem_cons_of_mem _ (ih h)

/-- an element in front is taken if it can be -/
theorem mem_pick_head {n : ℕ} {a : α} {l : List α} (hn : 0 < n) (h : p a = true) : a ∈ (pick p n (a :: l)).1 := by
  obtain ⟨n, rfl⟩ := Nat.exists_eq_succ_of_ne_zero hn.ne'
  rw [pick, if_pos h]
  exact List.mem_cons_self

/-- an element in front that cannot be taken stays in front -/
theorem pick_rest_head {n : ℕ} {a : α} {l : List α} (h : p a = false) : ∃ l', (pick p n (a :: l)).2 = a :: l' := by
  cases n with
  | zero => exact ⟨l, rfl⟩
  | succ n =>
    rw [pick, if_neg (by simp [h])]
    exact ⟨_, rfl⟩

theorem pick_map (q : γ → Bool) (f : α → γ) (n : ℕ) (l : List α) :
    (pick (fun a => q (f a)) n l).2.map f = (pick q n (l.map f)).2 := by
  induction l generalizing n with
  | nil => cases n <;> rfl
  | cons a l ih =>
    cases n with
    | zero => rfl
    | succ n =>
      rw [List.map_cons, pick, pick]
      split_ifs
      · exact ih n
      · rw [List.map_cons, ih]

theorem visits_map (q : γ → Bool) (f : α → γ) (n : ℕ) (l : List α) :
    (visits (fun a => q (f a)) n l).map f = visits q n (l.map f) := by
  induction l generalizing n with
  | nil => cases n <;> rfl
  | cons a l ih =>
    cases n with
    | zero => rfl
    | succ n =>
      rw [List.map_cons, visits, visits]
      split_ifs
      · rw [List.map_cons, ih]
      · rw [List.map_cons, ih]

/-- a selection depends on what the test says of the elements of the list -/
theorem pick_congr {p q : α → Bool} (n : ℕ) {l : List α} (h : ∀ a ∈ l, p a = q a) :
    pick p n l = pick q n l ∧ pickIdx p n l = pickIdx q n l ∧ visits p n l = visits q n l := by
  induction l generalizing n with
  | nil => cases n <;> exact ⟨rfl, rfl, rfl⟩
  | cons a l ih =>
    have ha := h a List.mem_cons_self
    have ih := fun n => ih n fun b hb => h b (List.mem_cons_of_mem _ hb)
    cases n with
    | zero => exact ⟨rfl, rfl, rfl⟩
    | succ n =>
      simp only [pick, pickIdx, visits, ha, (ih n).1, (ih n).2.1, (ih n).2.2, (ih (n + 1)).1, (ih (n + 1)).2.1,
        (ih (n + 1)).2.2]
      exact ⟨trivial, trivial, trivial⟩

/-! ## All levels -/

/-- what each level below `levels` takes, from the last one down, and what is left -/
def evict (fits : ℕ → α → Bool) (n : ℕ) : ℕ → List α → List (ℕ × List α) × List α
  | 0, l => ([], l)
  | level + 1, l =>
    let taken := pick (fits level) n l
    let others := evict fits n level taken.2
    ((level, taken.1) :: others.1, others.2)

/-- all elements taken -/
def evicted (fits : ℕ → α → Bool) (n levels : ℕ) (l : List α) : List α := (evict fits n levels l).1.flatMap Prod.snd

/-- the elements looked at, once for each level that looks at them -/
def evictVisits (fits : ℕ → α → Bool) (n : ℕ) : ℕ → List α → List α
  | 0, _ => []
  | level + 1, l => visits (fits level) n l ++ evictVisits fits n level (pick (fits level) n l).2

variable (fits : ℕ → α → Bool) (n : ℕ)

theorem evicted_succ (level : ℕ) (l : List α) :
    evicted fits n (level + 1) l = (pick (fits level) n l).1 ++ evicted fits n level (pick (fits level) n l).2 := rfl

theorem evict_perm (levels : ℕ) (l : List α) :
    (evicted fits n levels l ++ (evict fits n levels l).2).Perm l := by
  induction levels generalizing l with
  | zero => exact List.Perm.refl l
  | succ level ih =>
    rw [evicted_succ, List.append_assoc]
    exact ((ih _).append_left _).trans (pick_perm _ _ _)

theorem evict_levels (levels : ℕ) (l : List α) : (evict fits n levels l).1.map Prod.fst = (List.range levels).reverse := by
  induction levels generalizing l with
  | zero => rfl
  | succ level ih => rw [evict, List.map_cons, ih, List.range_succ, List.reverse_append]; rfl

theorem evict_fits {levels : ℕ} {l : List α} {x : ℕ × List α} (h : x ∈ (evict fits n levels l).1) :
    x.1 < levels ∧ x.2.length ≤ n ∧ ∀ a ∈ x.2, fits x.1 a = true := by
  induction levels generalizing l with
  | zero => simp [evict] at h
  | succ level ih =>
    rw [evict] at h
    rcases List.mem_cons.1 h with rfl | h
    · exact ⟨Nat.lt_succ_self _, length_pick_le _ _ _, fun a ha => pick_fits _ ha⟩
    · exact ⟨(ih h).1.trans (Nat.lt_succ_self _), (ih h).2⟩

/-- an element in front is evicted if it fits on any level -/
theorem mem_evicted_head {levels level : ℕ} {a : α} {l : List α} (hn : 0 < n) (hl : level < levels)
    (h : fits level a = true) : a ∈ evicted fits n levels (a :: l) := by
  induction levels generalizing l with
  | zero => omega
  | succ top ih =>
    rw [evicted_succ]
    by_cases ht : fits top a = true
    · exact List.mem_append_left _ (mem_pick_head _ hn ht)
    · obtain ⟨l', hl'⟩ := pick_rest_head (fits top) (n := n) (l := l) (Bool.eq_false_iff.2 ht)
      have hne : level ≠ top := fun he => ht (he ▸ h)
      rw [hl']
      exact List.mem_append_right _ (ih (by omega))

theorem evictVisits_map (fits : ℕ → γ → Bool) (f : α → γ) (levels : ℕ) (l : List α) :
    (evictVisits (fun level a => fits level (f a)) n levels l).map f = evictVisits fits n levels (l.map f) := by
  induction levels generalizing l with
  | zero => rfl
  | succ level ih => rw [evictVisits, evictVisits, List.map_append, visits_map, ih, pick_map]


/-! ## Optimality -/

/-- a placement of the elements of a list on the levels below `levels`: each on a level it fits, and n of them on each
level at most. An element may have no place. -/
structure Legal (fits : ℕ → α → Bool) (n levels : ℕ) (l : List α) (place : α → Option ℕ) : Prop where
  fits : ∀ a ∈ l, ∀ level, place a = some level → level < levels ∧ fits level a = true
  room : ∀ level, l.countP (fun a => place a = some level) ≤ n

/-- what fits on a level fits on the levels before it -/
def Nested (fits : ℕ → α → Bool) (levels : ℕ) (l : List α) : Prop :=
  ∀ a ∈ l, ∀ level level', level' ≤ level → level < levels → fits level a = true → fits level' a = true

/-- the elements that fit on level k; no element fits on a level that does not exist -/
def fitting (fits : ℕ → α → Bool) (levels k : ℕ) (l : List α) : ℕ := if k < levels then l.countP (fits k) else 0

theorem countP_le_add {p q r : α → Bool} {l : List α} (h : ∀ a ∈ l, p a = true → q a = true ∨ r a = true) :
    l.countP p ≤ l.countP q + l.countP r := by
  induction l with
  | nil => exact Nat.zero_le _
  | cons a l ih =>
    have ih := ih fun b hb => h b (List.mem_cons_of_mem _ hb)
    have ha := h a List.mem_cons_self
    rw [List.countP_cons, List.countP_cons, List.countP_cons]
    split_ifs with hp hq hr <;> simp_all <;> omega

/-- a pick takes n elements, or all that fit -/
theorem length_pick (p : α → Bool) (n : ℕ) (l : List α) :
    (pick p n l).1.length = n ∨ (pick p n l).1.length = l.countP p := by
  induction l generalizing n with
  | nil => cases n <;> simp [pick]
  | cons a l ih =>
    cases n with
    | zero => exact Or.inl rfl
    | succ n =>
      rw [pick]
      split_ifs with h
      · rw [List.length_cons, List.countP_cons_of_pos h]
        exact (ih n).imp (congrArg (· + 1)) (congrArg (· + 1))
      · rw [List.countP_cons_of_neg h]
        exact ih (n + 1)

section Optimal

variable {fits n} {levels : ℕ} {l : List α}

/-- a placement fills k levels at most, and places on the other levels no more than what fits on level k -/
theorem Legal.length_le (hnested : Nested fits levels l) {place : α → Option ℕ} (h : Legal fits n levels l place) (k : ℕ) :
    l.length ≤ l.countP (fun a => place a = none) + (k * n + fitting fits levels k l) := by
  have hlow : l.countP (fun a => (place a).any (· < k)) ≤ k * n := by
    induction k with
    | zero => simp
    | succ k ih =>
      rw [Nat.succ_mul]
      refine le_trans (countP_le_add fun a _ ha => ?_) (Nat.add_le_add ih (h.room k))
      cases hp : place a <;> simp_all
      omega
  have hhigh : l.countP (fun a => (place a).any (k ≤ ·)) ≤ fitting fits levels k l := by
    unfold fitting
    split_ifs with hk
    · apply List.countP_mono_left
      intro a ha hp
      obtain ⟨level, hlevel, hle⟩ := (Option.any_eq_true _ _).1 hp
      obtain ⟨hlt, hfit⟩ := h.fits a ha level hlevel
      exact hnested a ha level k (of_decide_eq_true hle) hlt hfit
    · refine le_of_eq (List.countP_eq_zero.2 fun a ha hp => hk ?_)
      obtain ⟨level, hlevel, hle⟩ := (Option.any_eq_true _ _).1 hp
      exact (of_decide_eq_true hle).trans_lt (h.fits a ha level hlevel).1
  have hplaced : l.countP (fun a => (place a).isSome) ≤ k * n + fitting fits levels k l := by
    refine le_trans (countP_le_add fun a _ ha => ?_) (Nat.add_le_add hlow hhigh)
    obtain ⟨level, hlevel⟩ := Option.isSome_iff_exists.1 ha
    simpa [hlevel] using lt_or_ge level k
  rw [List.length_eq_countP_add_countP fun a => decide (place a = none)]
  refine Nat.add_le_add_left (le_trans (List.countP_mono_left fun a _ ha => ?_) hplaced) _
  simpa [Option.isSome_iff_ne_none] using ha

/-- a greedy selection fills k levels for some k, and takes all that fits on level k -/
theorem evict_length (hnested : Nested fits levels l) :
    ∃ k ≤ levels, (evict fits n levels l).2.length + (k * n + fitting fits levels k l) = l.length := by
  induction levels generalizing l with
  | zero => exact ⟨0, le_rfl, by simp [evict, fitting]⟩
  | succ top ih =>
    set taken := pick (fits top) n l with htaken
    have hperm : (taken.1 ++ taken.2).Perm l := pick_perm (fits top) n l
    have hlen : taken.1.length + taken.2.length = l.length := by
      rw [← List.length_append, hperm.length_eq]
    have hrest : Nested fits top taken.2 := fun a ha level level' hle hlt =>
      hnested a (hperm.subset (List.mem_append_right _ ha)) level level' hle (Nat.lt_succ_of_lt hlt)
    obtain ⟨k, hk, heq⟩ := ih hrest
    change ∃ k ≤ top + 1, (evict fits n top taken.2).2.length + _ = _
    rcases hk.lt_or_eq with hlt | rfl
    · -- what was taken fits on level k, too
      have hall : taken.1.countP (fits k) = taken.1.length := List.countP_eq_length.2 fun a ha =>
        hnested a (hperm.subset (List.mem_append_left _ ha)) top k hk (Nat.lt_succ_self _) (pick_fits _ ha)
      have hsum : l.countP (fits k) = taken.1.length + taken.2.countP (fits k) := by
        rw [← hall, ← List.countP_append, hperm.countP_eq]
      rw [fitting, if_pos hlt] at heq
      refine ⟨k, Nat.le_succ_of_le hk, ?_⟩
      rw [fitting, if_pos (Nat.lt_succ_of_lt hlt)]
      omega
    · rw [fitting, if_neg (lt_irrefl _)] at heq
      rcases length_pick (fits k) n l with hfull | hall
      · refine ⟨k + 1, le_rfl, ?_⟩
        rw [fitting, if_neg (lt_irrefl _), Nat.succ_mul]
        rw [← htaken] at hfull
        omega
      · refine ⟨k, Nat.le_succ k, ?_⟩
        rw [fitting, if_pos (Nat.lt_succ_self k)]
        rw [← htaken] at hall
        omega

/-- the selection is itself a placement -/
theorem exists_legal_evict (hl : l.Nodup) :
    ∃ place, Legal fits n levels l place ∧ l.countP (fun a => place a = none) = (evict fits n levels l).2.length := by
  classical
  induction levels generalizing l with
  | zero =>
    refine ⟨fun _ => none, ⟨fun a _ level h => ?_, fun level => by simp⟩, by simp [evict]⟩
    cases h
  | succ top ih =>
    set taken := pick (fits top) n l with htaken
    have hperm : (taken.1 ++ taken.2).Perm l := pick_perm (fits top) n l
    obtain ⟨-, hnodup, hdisjoint⟩ := List.nodup_append'.1 (hperm.nodup_iff.2 hl)
    obtain ⟨place, hlegal, hnone⟩ := ih hnodup
    set place' : α → Option ℕ := fun a => if a ∈ taken.1 then some top else place a with hplace'
    have htake : ∀ a ∈ taken.1, place' a = some top := fun a ha => if_pos ha
    have hrest : ∀ a ∈ taken.2, place' a = place a := fun a ha => if_neg fun h => hdisjoint h ha
    refine ⟨place', ⟨fun a ha level h => ?_, fun level => ?_⟩, ?_⟩
    · rcases List.mem_append.1 (hperm.mem_iff.2 ha) with hm | hm
      · rw [htake a hm] at h
        cases h
        exact ⟨Nat.lt_succ_self _, pick_fits _ hm⟩
      · rw [hrest a hm] at h
        exact ⟨Nat.lt_succ_of_lt (hlegal.fits a hm level h).1, (hlegal.fits a hm level h).2⟩
    · rw [← hperm.countP_eq, List.countP_append]
      have h2 : taken.2.countP (fun a => place' a = some level) = taken.2.countP (fun a => place a = some level) :=
        List.countP_congr fun a ha => by rw [hrest a ha]
      rw [h2]
      by_cases htop : level = top
      · have hzero : taken.2.countP (fun a => place a = some level) = 0 := List.countP_eq_zero.2 fun a ha h =>
          absurd (hlegal.fits a ha level (of_decide_eq_true h)).1 (by omega)
        rw [hzero]
        exact List.countP_le_length.trans (length_pick_le _ _ _)
      · have hzero : taken.1.countP (fun a => place' a = some level) = 0 := List.countP_eq_zero.2 fun a ha h => by
          rw [htake a ha] at h
          exact htop (Option.some.inj (of_decide_eq_true h)).symm
        rw [hzero, Nat.zero_add]
        exact hlegal.room level
    · rw [← hperm.countP_eq, List.countP_append]
      have h1 : taken.1.countP (fun a => place' a = none) = 0 := List.countP_eq_zero.2 fun a ha h => by
        rw [htake a ha] at h
        cases of_decide_eq_true h
      have h2 : taken.2.countP (fun a => place' a = none) = taken.2.countP (fun a => place a = none) :=
        List.countP_congr fun a ha => by rw [hrest a ha]
      rw [h1, h2, hnone, Nat.zero_add]
      rfl

/-- **Greedy selection is optimal.** When the levels are nested, no placement leaves fewer elements without a place. -/
theorem evict_isLeast (hnested : Nested fits levels l) (hl : l.Nodup) :
    IsLeast {m | ∃ place, Legal fits n levels l place ∧ l.countP (fun a => place a = none) = m}
      (evict fits n levels l).2.length := by
  refine ⟨exists_legal_evict hl, ?_⟩
  rintro _ ⟨place, hlegal, rfl⟩
  obtain ⟨k, -, hlen⟩ := evict_length (n := n) hnested
  have := hlegal.length_le hnested k
  omega

end Optimal

/-! ## Elements that were passed over -/

/-- a selection that passes over an element that fits has all that it may take -/
theorem length_pick_of_passed {p : α → Bool} {n : ℕ} {l : List α} {a : α} (ha : a ∈ (pick p n l).2) (hp : p a = true) :
    (pick p n l).1.length = n := by
  induction l generalizing n with
  | nil => cases n <;> simp [pick] at ha
  | cons b l ih =>
    cases n with
    | zero => rfl
    | succ n =>
      simp only [pick] at ha ⊢
      split_ifs at ha ⊢ with hb
      · rw [List.length_cons, ih ha]
      · rcases List.mem_cons.1 ha with rfl | ha
        · exact absurd hp hb
        · exact ih ha

/-- **A level that passes over an element that fits is full**: the element is left, or a lower level takes it. -/
theorem evict_full {fits : ℕ → α → Bool} {n levels level : ℕ} {l : List α} {a : α} (hl : level < levels)
    (hfits : fits level a = true)
    (hpassed : a ∈ (evict fits n levels l).2 ∨ ∃ x ∈ (evict fits n levels l).1, x.1 < level ∧ a ∈ x.2) :
    ∀ x ∈ (evict fits n levels l).1, x.1 = level → x.2.length = n := by
  induction levels generalizing l with
  | zero => exact absurd hl (Nat.not_lt_zero _)
  | succ last ih =>
    intro x hx hlevel
    rw [evict] at hx hpassed
    rcases List.mem_cons.1 hx with rfl | hx
    · obtain rfl : last = level := hlevel
      have hrest : a ∈ (pick (fits last) n l).2 := by
        apply (evict_perm fits n last _).subset
        rcases hpassed with ha | ⟨y, hy, hlt, ha⟩
        · exact List.mem_append_right _ ha
        · rcases List.mem_cons.1 hy with rfl | hy
          · exact absurd hlt (lt_irrefl _)
          · exact List.mem_append_left _ (List.mem_flatMap.2 ⟨y, hy, ha⟩)
      exact length_pick_of_passed hrest hfits
    · have hlt : x.1 < last := (evict_fits _ _ hx).1
      refine ih (by omega) ?_ x hx hlevel
      apply hpassed.imp_right
      rintro ⟨y, hy, hylt, ha⟩
      rcases List.mem_cons.1 hy with rfl | hy
      · exact absurd (hylt.trans (hlevel ▸ hlt)) (lt_irrefl _)
      · exact ⟨y, hy, hylt, ha⟩

end PathOram.Lib
