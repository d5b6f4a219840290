/-
Hash maps with an unspecified order of iteration.

A map is an association list whose keys differ (`AList`). Three kinds of insertion are told apart: `emplace` keeps the
value a key has, `AList.insert` replaces it, and `assignAll` replaces the values of a list of entries in turn. The
order in which the entries stand in the list is not the order in which a program meets them: `arrange k` is the
permutation chosen by the number k, and every order of iteration is one of these.
-/
import Mathlib.Data.List.AList
import Mathlib.Tactic

namespace PathOram.Lib

abbrev UnorderedMap (κ ν : Type) := AList fun _ : κ => ν

/-! ## Orders of iteration -/

/-- the k-th arrangement of a list -/
def arrange {α : Type} : ℕ → List α → List α
  | _, [] => []
  | k, a :: l => (arrange (k / (l.length + 1)) l).insertIdx (k % (l.length + 1)) a

theorem arrange_perm {α : Type} (k : ℕ) (l : List α) : (arrange k l).Perm l := by
  induction l generalizing k with
  | nil => exact List.Perm.refl _
  | cons a l ih =>
    have hlen : (arrange (k / (l.length + 1)) l).length = l.length := (ih _).length_eq
    have hk : k % (l.length + 1) ≤ (arrange (k / (l.length + 1)) l).length := by
      rw [hlen]; exact Nat.lt_succ_iff.1 (Nat.mod_lt _ (Nat.succ_pos _))
    exact (List.perm_insertIdx a _ hk).trans ((ih _).cons a)

theorem insertIdx_length_append {α : Type} (front back : List α) (a : α) :
    (front ++ back).insertIdx front.length a = front ++ a :: back := by
  induction front with
  | nil => rfl
  | cons b front ih => rw [List.cons_append, List.length_cons, List.insertIdx_succ_cons, ih, List.cons_append]

/-- every permutation is an arrangement -/
theorem exists_arrange {α : Type} {l p : List α} (h : p.Perm l) : ∃ k, arrange k l = p := by
  induction l generalizing p with
  | nil => exact ⟨0, (List.perm_nil.1 h).symm⟩
  | cons a l ih =>
    obtain ⟨front, back, rfl⟩ := List.append_of_mem (h.mem_iff.2 List.mem_cons_self)
    have hrest : (front ++ back).Perm l := (List.perm_cons a).1 (List.perm_middle.symm.trans h)
    obtain ⟨k, hk⟩ := ih hrest
    have hle : front.length < l.length + 1 := by
      rw [← hrest.length_eq, List.length_append]
      omega
    refine ⟨k * (l.length + 1) + front.length, ?_⟩
    have hdiv : (k * (l.length + 1) + front.length) / (l.length + 1) = k := by
      rw [Nat.mul_comm, Nat.mul_add_div (Nat.succ_pos _), Nat.div_eq_of_lt hle, Nat.add_zero]
    have hmod : (k * (l.length + 1) + front.length) % (l.length + 1) = front.length := by
      rw [Nat.mul_comm, Nat.mul_add_mod, Nat.mod_eq_of_lt hle]
    rw [arrange, hdiv, hmod, hk, insertIdx_length_append]

/-- every element comes first in some arrangement -/
theorem exists_arrange_head {α : Type} {a : α} {l : List α} (h : a ∈ l) : ∃ k l', arrange k l = a :: l' := by
  obtain ⟨front, back, rfl⟩ := List.append_of_mem h
  obtain ⟨k, hk⟩ := exists_arrange (show (a :: (front ++ back)).Perm (front ++ a :: back) from List.perm_middle.symm)
  exact ⟨k, _, hk⟩

namespace UnorderedMap

variable {κ ν : Type}

/-- the entries as pairs -/
def toList (m : UnorderedMap κ ν) : List (κ × ν) := m.entries.map fun e => (e.1, e.2)

def size (m : UnorderedMap κ ν) : ℕ := m.entries.length

theorem toList_keys (m : UnorderedMap κ ν) : m.toList.map Prod.fst = m.keys := by
  simp [toList, AList.keys, List.keys]

theorem nodup_keys (m : UnorderedMap κ ν) : (m.toList.map Prod.fst).Nodup := by
  rw [toList_keys]; exact m.keys_nodup

@[simp] theorem length_toList (m : UnorderedMap κ ν) : m.toList.length = m.size := by simp [toList, size]

@[simp] theorem toList_empty : (∅ : UnorderedMap κ ν).toList = [] := rfl

@[simp] theorem size_empty : (∅ : UnorderedMap κ ν).size = 0 := rfl

theorem mem_singleton {k k' : κ} {v : ν} : k' ∈ (AList.singleton k v : UnorderedMap κ ν) ↔ k' = k := by
  rw [AList.mem_keys, AList.keys_singleton, List.mem_singleton]

variable [DecidableEq κ]

/-- insert an entry unless its key is there already -/
def emplace (m : UnorderedMap κ ν) (k : κ) (v : ν) : UnorderedMap κ ν := if k ∈ m then m else m.insert k v

/-- insert entries in turn, each replacing the value its key had -/
def assignAll (m : UnorderedMap κ ν) (l : List (κ × ν)) : UnorderedMap κ ν := l.foldl (fun m e => m.insert e.1 e.2) m

theorem mem_toList {m : UnorderedMap κ ν} {k : κ} {v : ν} : (k, v) ∈ m.toList ↔ m.lookup k = some v := by
  rw [← Option.mem_def, AList.mem_lookup_iff, toList, List.mem_map]
  constructor
  · rintro ⟨⟨k', v'⟩, he, h⟩
    cases h
    exact he
  · exact fun h => ⟨⟨k, v⟩, h, rfl⟩

theorem mem_iff_lookup {m : UnorderedMap κ ν} {k : κ} : k ∈ m ↔ ∃ v, m.lookup k = some v := by
  rw [← AList.lookup_isSome, Option.isSome_iff_exists]

theorem lookup_insert_eq (m : UnorderedMap κ ν) (k k' : κ) (v : ν) :
    (m.insert k v).lookup k' = if k' = k then some v else m.lookup k' := by
  split_ifs with h
  · subst h; exact AList.lookup_insert m
  · exact AList.lookup_insert_ne h

theorem lookup_erase_eq (m : UnorderedMap κ ν) (k k' : κ) :
    (m.erase k).lookup k' = if k' = k then none else m.lookup k' := by
  split_ifs with h
  · subst h; exact AList.lookup_erase k' m
  · exact AList.lookup_erase_ne h

theorem lookup_emplace (m : UnorderedMap κ ν) (k k' : κ) (v : ν) :
    (m.emplace k v).lookup k' = if k' = k ∧ k ∉ m then some v else m.lookup k' := by
  unfold emplace
  by_cases hk : k ∈ m
  · simp [hk]
  · rw [if_neg hk, lookup_insert_eq]
    simp [hk]

theorem mem_emplace {m : UnorderedMap κ ν} {k k' : κ} {v : ν} : k' ∈ m.emplace k v ↔ k' = k ∨ k' ∈ m := by
  unfold emplace
  split_ifs with hk
  · exact ⟨Or.inr, fun h => h.elim (fun h => h ▸ hk) id⟩
  · exact AList.mem_insert m

/-- the keys, of which the size counts the number -/
def keySet (m : UnorderedMap κ ν) : Finset κ := m.keys.toFinset

theorem mem_keySet {m : UnorderedMap κ ν} {k : κ} : k ∈ m.keySet ↔ k ∈ m := by
  rw [keySet, List.mem_toFinset, AList.mem_keys]

theorem card_keySet (m : UnorderedMap κ ν) : m.keySet.card = m.size := by
  rw [keySet, List.toFinset_card_of_nodup m.keys_nodup, size, AList.keys, List.keys, List.length_map]

theorem keySet_insert (m : UnorderedMap κ ν) (k : κ) (v : ν) : keySet (m.insert k v) = insert k m.keySet := by
  ext k'
  rw [mem_keySet, Finset.mem_insert, mem_keySet, AList.mem_insert]

theorem keySet_emplace (m : UnorderedMap κ ν) (k : κ) (v : ν) : keySet (m.emplace k v) = insert k m.keySet := by
  ext k'
  rw [mem_keySet, Finset.mem_insert, mem_keySet, mem_emplace]

theorem keySet_erase (m : UnorderedMap κ ν) (k : κ) : keySet (m.erase k) = m.keySet.erase k := by
  ext k'
  rw [mem_keySet, Finset.mem_erase, mem_keySet, AList.mem_erase]

/-- insert entries in turn, none of which overrides -/
def emplaceAll (m : UnorderedMap κ ν) (l : List (κ × ν)) : UnorderedMap κ ν := l.foldl (fun m e => m.emplace e.1 e.2) m

theorem keySet_emplaceAll (m : UnorderedMap κ ν) (l : List (κ × ν)) :
    keySet (m.emplaceAll l) = m.keySet ∪ (l.map Prod.fst).toFinset := by
  induction l generalizing m with
  | nil => simp [emplaceAll]
  | cons e l ih =>
    change keySet ((m.emplace e.1 e.2).emplaceAll l) = _
    rw [ih, keySet_emplace, List.map_cons, List.toFinset_cons, Finset.insert_union, Finset.union_insert]

theorem mem_emplaceAll {m : UnorderedMap κ ν} {l : List (κ × ν)} {k : κ} :
    k ∈ m.emplaceAll l ↔ k ∈ m ∨ k ∈ l.map Prod.fst := by
  rw [← mem_keySet, keySet_emplaceAll, Finset.mem_union, mem_keySet, List.mem_toFinset]

/-- what is there is not replaced -/
theorem lookup_emplaceAll_of_some {m : UnorderedMap κ ν} {l : List (κ × ν)} {k : κ} {v : ν} (h : m.lookup k = some v) :
    (m.emplaceAll l).lookup k = some v := by
  induction l generalizing m with
  | nil => exact h
  | cons e l ih =>
    apply ih
    rw [lookup_emplace, if_neg, h]
    intro ⟨hk, hnot⟩
    exact hnot (mem_iff_lookup.2 ⟨v, hk ▸ h⟩)

theorem of_lookup_emplaceAll {m : UnorderedMap κ ν} {l : List (κ × ν)} {k : κ} {v : ν}
    (h : (m.emplaceAll l).lookup k = some v) : (k, v) ∈ l ∨ m.lookup k = some v := by
  induction l generalizing m with
  | nil => exact Or.inr h
  | cons e l ih =>
    rcases ih (m := m.emplace e.1 e.2) h with hl | hm
    · exact Or.inl (List.mem_cons_of_mem _ hl)
    · rw [lookup_emplace] at hm
      split_ifs at hm with hk
      · cases hm
        exact Or.inl (hk.1 ▸ List.mem_cons_self)
      · exact Or.inr hm

/-- a map has as many entries as distinct keys of it can be listed -/
theorem length_le_size {m : UnorderedMap κ ν} {l : List κ} (hn : l.Nodup) (h : ∀ k ∈ l, k ∈ m) : l.length ≤ m.size := by
  rw [← card_keySet, ← List.toFinset_card_of_nodup hn]
  exact Finset.card_le_card fun k hk => mem_keySet.2 (h k (List.mem_toFinset.1 hk))

theorem size_emplace_le (m : UnorderedMap κ ν) (k : κ) (v : ν) : (m.emplace k v).size ≤ m.size + 1 := by
  rw [← card_keySet, ← card_keySet, keySet_emplace]
  exact Finset.card_insert_le _ _

theorem lookup_assignAll_of_notMem (m : UnorderedMap κ ν) (l : List (κ × ν)) (k : κ) (h : k ∉ l.map Prod.fst) :
    (m.assignAll l).lookup k = m.lookup k := by
  induction l generalizing m with
  | nil => rfl
  | cons e l ih =>
    simp only [List.map_cons, List.mem_cons, not_or] at h
    show (assignAll (m.insert e.1 e.2) l).lookup k = _
    rw [ih _ h.2, lookup_insert_eq, if_neg h.1]

/-- with distinct keys, each key of the list gets its own value -/
theorem lookup_assignAll_of_mem (m : UnorderedMap κ ν) (l : List (κ × ν)) (hn : (l.map Prod.fst).Nodup) {k : κ} {v : ν}
    (h : (k, v) ∈ l) : (m.assignAll l).lookup k = some v := by
  induction l generalizing m with
  | nil => simp at h
  | cons e l ih =>
    rw [List.map_cons, List.nodup_cons] at hn
    show (assignAll (m.insert e.1 e.2) l).lookup k = _
    rcases List.mem_cons.1 h with rfl | h
    · rw [lookup_assignAll_of_notMem _ _ _ hn.1, lookup_insert_eq, if_pos rfl]
    · exact ih _ hn.2 h

/-- a value is one of the list's, or was there before -/
theorem of_lookup_assignAll {m : UnorderedMap κ ν} {l : List (κ × ν)} {k : κ} {v : ν}
    (h : (m.assignAll l).lookup k = some v) : (k, v) ∈ l ∨ m.lookup k = some v := by
  induction l generalizing m with
  | nil => exact Or.inr h
  | cons e l ih =>
    rcases ih (m := m.insert e.1 e.2) h with hl | hm
    · exact Or.inl (List.mem_cons_of_mem _ hl)
    · rw [lookup_insert_eq] at hm
      split_ifs at hm with hk
      · cases hm
        exact Or.inl (hk ▸ List.mem_cons_self)
      · exact Or.inr hm

theorem mem_assignAll {m : UnorderedMap κ ν} {l : List (κ × ν)} {k : κ} :
    k ∈ m.assignAll l ↔ k ∈ m ∨ k ∈ l.map Prod.fst := by
  induction l generalizing m with
  | nil => simp [assignAll]
  | cons e l ih =>
    show k ∈ assignAll (m.insert e.1 e.2) l ↔ _
    rw [ih, AList.mem_insert, List.map_cons, List.mem_cons]
    tauto

end UnorderedMap

end PathOram.Lib
