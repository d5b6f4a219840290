/-
What an access that throws leaves for later gets.

It remaps its block before it reads the old path, so it may leave copies of the block off the path of its leaf, and the
invariant does not survive it in general. `Readable` asks less, and gets keep it: copies carry the right payload, and of
every written block a get finds one, in the stash or on the path of its leaf.

- `readable_interrupted`: an access that throws leaves a readable view if its own block is found.
- `readable_accessed`: a get keeps a view readable and answers like the map.
- `gets_triple`: **a sequence of gets answers like the map** from a readable state.
- `lost_triple`: a get of a block that is not found returns nothing.
-/
import PathOram.Runs

namespace PathOram

open Lib

namespace LawfulOram

variable {β μ : Type} {O : Oram β μ} {L : LawfulOram O} {v v' : View} {c : Contents}

/-- a get of the block finds a copy -/
def Found (O : Oram β μ) (v : View) (block : ℕ) : Prop :=
  (∃ d, v.stash block = some d) ∨ ∃ ℓ ∈ path O.height (v.pos block), ∃ x ∈ v.tree ℓ, x.1 = block

/-- gets find the contents c -/
structure Readable (O : Oram β μ) (c : Contents) (v : View) : Prop extends Shape O v where
  stash_good : ∀ k d, v.stash k = some d → Good c k d
  tree_good : ∀ ℓ, ∀ x ∈ v.tree ℓ, x.1 ≠ ulongMax → Good c x.1 x.2
  id_lt : ∀ k p, c k = some p → k < 2 ^ O.height * O.Z
  found : ∀ k p, c k = some p → Found O v k

theorem Inv.readable (L : LawfulOram O) (hv : Inv O c v) : Readable O c v where
  toShape := hv.toShape
  stash_good := hv.stash_good
  tree_good := hv.tree_good
  id_lt := hv.id_lt
  found k p hk := by
    rcases hv.copy k p hk with hs | ⟨ℓ, x, hx, rfl⟩
    · exact Or.inl hs
    · exact Or.inr ⟨ℓ, hv.tree_path ℓ x hx (ne_ulongMax L (hv.id_lt _ p hk)), x, hx, rfl⟩

/-! ## The access that throws -/

/-- **An access that throws leaves a readable view if its block is found**: the other blocks are where they were. -/
theorem readable_interrupted (L : LawfulOram O) (hv : Inv O c v) {op : Op} (hop : op.block < 2 ^ O.height * O.Z)
    {e : Exception} (hi : Interrupted L v op e v') (hfound : c op.block ≠ none → Found O v' op.block) : Readable O c v' := by
  have hshape := shape_interrupted L hv.toShape hop hi
  obtain ⟨-, leaf, hleaf, blocks, cached, calls, hblocks, -, rfl⟩ := hi
  refine ⟨hshape, fun k d hk => ?_, hv.tree_good, hv.id_lt, fun k p hk => ?_⟩
  · rcases of_absorb hk with hs | ⟨hm, hne⟩
    · exact hv.stash_good k d hs
    · obtain ⟨ℓ, -, hx⟩ := hblocks _ hm
      exact hv.tree_good ℓ _ hx hne
  · rcases eq_or_ne k op.block with rfl | hb
    · exact hfound (by simp [hk])
    · rcases (hv.readable L).found k p hk with ⟨d, hd⟩ | ⟨ℓ, hp, hx⟩
      · exact Or.inl ⟨d, absorb_of_some hd _⟩
      · refine Or.inr ⟨ℓ, ?_, hx⟩
        change ℓ ∈ path O.height (Function.update v.pos op.block leaf k)
        rwa [Function.update_of_ne hb]

/-! ## Gets -/

/-- a selected block is on the path of its leaf -/
theorem Evicted.found_of_evicted (L : LawfulOram O) {leaf : ℕ} {cs : List Block} (hv : Shape O v)
    (hf : leaf < 2 ^ (O.height - 1)) (h : Evicted O v leaf cs v') {x : Block}
    (hx : x ∈ evicted (O.fits v.pos leaf) O.Z O.height cs) : Found O v' x.1 := by
  obtain ⟨ℓ, hℓ, hxℓ⟩ := h.mem_path_of_evicted hx
  have hid := hv.stash_id _ _ (h.stash_of_mem hx)
  rcases h.of_mem_path hℓ hxℓ with hd | ⟨-, -, level, hlevel, rfl, hfit⟩
  · exact absurd hd.1 (ne_ulongMax L hid)
  · rw [L.canInclude_iff hlevel (hv.pos_lt _ hid) hf] at hfit
    refine Or.inr ⟨_, ?_, x, hxℓ, rfl⟩
    rw [← hfit, h.pos]
    exact mem_path.2 ⟨level, hlevel, rfl⟩

/-- **A get answers like the map** and keeps the view readable. -/
theorem readable_accessed (L : LawfulOram O) (hsmall : O.Small) (hv : Readable O c v) {op : Op} (hop : op.Valid O)
    (hread : op.read = true) {r : Bytes} (ha : Accessed O v op [] r v') : Readable O c v' ∧ c.Answers op r := by
  have hshape := shape_accessed L hv.toShape hop.block_lt hop.data_le ha
  obtain ⟨leaf, mid, cs, hleaf, hpath, hr, hev⟩ := ha
  have hpos := hv.pos_lt _ hop.block_lt
  have hmid := shape_pathRead L (shape_remapped hv.toShape hleaf) hpos hpath
  have hup : updated op mid = mid := if_pos hread
  rw [hup] at hr hev
  obtain ⟨blocks, missing, hblocks, -, rfl⟩ := hpath
  change ∀ x, x ∈ blocks ↔ ∃ ℓ ∈ path O.height (v.pos op.block), x ∈ v.tree ℓ at hblocks
  have hgood : ∀ k d, absorb v.stash blocks k = some d → Good c k d := by
    intro k d hk
    rcases of_absorb hk with hs | ⟨hm, hne⟩
    · exact hv.stash_good k d hs
    · obtain ⟨ℓ, -, hx⟩ := (hblocks _).1 hm
      exact hv.tree_good ℓ _ hx hne
  -- what is not in the stash now is off the path that was read, and on its own
  have hfound : ∀ k p, c k = some p → (∃ d, absorb v.stash blocks k = some d) ∨ ∃ ℓ ∈ path O.height (v.pos k),
      ℓ ∉ path O.height (v.pos op.block) ∧ ∃ x ∈ v.tree ℓ, x.1 = k := by
    intro k p hk
    rcases hv.found k p hk with ⟨d, hd⟩ | ⟨ℓ, hℓ, x, hx, rfl⟩
    · exact Or.inl ⟨d, absorb_of_some hd _⟩
    · by_cases hp : ℓ ∈ path O.height (v.pos op.block)
      · exact Or.inl (absorb_of_mem ((hblocks x).2 ⟨ℓ, hp, hx⟩) (ne_ulongMax L (hv.id_lt _ p hk)))
      · exact Or.inr ⟨ℓ, hℓ, hp, x, hx, rfl⟩
  refine ⟨⟨hshape, fun k d hk => hgood k d (hev.stash_some hk), fun ℓ x hx hne => ?_, hv.id_lt, fun k p hk => ?_⟩, ?_⟩
  · by_cases hp : ℓ ∈ path O.height (v.pos op.block)
    · rcases hev.of_mem_path hp hx with hd | hs
      · exact absurd hd.1 hne
      · exact hgood _ _ hs.1
    · rw [hev.off_path ℓ hp] at hx
      exact hv.tree_good ℓ x hx hne
  · rcases hfound k p hk with ⟨d, hd⟩ | ⟨ℓ, hℓ, hp, x, hx, rfl⟩
    · rcases hev.evicted_or_stays hsmall hmid hd with he | hs
      · exact hev.found_of_evicted L hmid hpos he
      · exact Or.inl ⟨d, hs⟩
    · have hb : x.1 ≠ op.block := fun he => hp (he ▸ hℓ)
      refine Or.inr ⟨ℓ, ?_, x, by rwa [hev.off_path ℓ hp], rfl⟩
      rw [hev.pos]
      change ℓ ∈ path O.height (Function.update v.pos op.block leaf x.1)
      rwa [Function.update_of_ne hb]
  · rw [List.append_nil] at hr
    subst hr
    apply answers_of_good hread hgood
    intro p hc
    rcases hfound op.block p hc with hd | ⟨ℓ, hℓ, hp, -⟩
    · exact hd
    · exact absurd hℓ hp

theorem readable_synced (hv : Readable O c v) (hs : Synced O v v') : Readable O c v' := by
  obtain ⟨requests, call, -, -, -, rfl⟩ := hs
  refine ⟨shape_padded hv.toShape fun ℓ h => by simp at h, hv.stash_good, fun ℓ x hx hne => ?_, hv.id_lt, fun k p hk => ?_⟩
  · obtain ⟨y, hy, h1, h2⟩ := mem_padded hx
    rw [h1] at hne ⊢
    have hg := hv.tree_good ℓ y hy hne
    rcases h2 with h2 | h2
    · exact h2 ▸ hg
    · exact h2 ▸ hg.of_zeroPadded (zeroPadded_zeroPad _ _)
  · refine (hv.found k p hk).imp_right fun ⟨ℓ, hℓ, x, hx, hxk⟩ => ⟨ℓ, hℓ, ?_⟩
    change ∃ x ∈ padded O v ℓ, x.1 = k
    unfold padded
    split_ifs
    · exact ⟨_, List.mem_map_of_mem hx, hxk⟩
    · exact ⟨x, hx, hxk⟩

/-- a state of which gets find the contents c -/
def GetsFind (L : LawfulOram O) (c : Contents) (s : OramState β μ) : Prop := ∃ v, Readable O c v ∧ L.Sees v s

theorem get_triple (hsmall : O.Small) {block : ℕ} (hb : block < 2 ^ O.height * O.Z) :
    Triple (L.GetsFind c) (O.exec (.get block)) (fun reply s => c.Replies (.get block) reply ∧ L.GetsFind c s)
      (fun _ _ => True) := by
  have hop : Op.Valid O ⟨true, block, []⟩ := ⟨hb, Nat.zero_le _⟩
  apply Triple.exists_pre
  intro v
  apply Triple.of_pure
  intro hv
  refine Triple.bind (get_refines hv.toShape hop) (fun r => ?_) |>.conseq (fun _ h => h) (fun _ _ h => h) fun _ _ _ => trivial
  apply Triple.pure
  intro s hs
  obtain ⟨v', ⟨v₁, v₂, hp, hrun, hsync⟩, hs⟩ := hs
  obtain ⟨cached, mapCalls, calls, hc, rfl⟩ := id hp
  have hv₁ : Readable O c { v with cached := cached, mapCalls := mapCalls, calls := calls } :=
    ⟨shape_prepared hv.toShape hp, hv.stash_good, hv.tree_good, hv.id_lt, hv.found⟩
  cases hrun with
  | cons ha hnil =>
    cases hnil
    obtain ⟨hv₂, hanswer⟩ := readable_accessed L hsmall hv₁ hop rfl ha
    exact ⟨hanswer, v', readable_synced hv₂ hsync, hs⟩

/-- **Gets answer like the map**, as many as return. -/
theorem gets_triple (hsmall : O.Small) {blocks : List ℕ} (hb : ∀ block ∈ blocks, block < 2 ^ O.height * O.Z) :
    Triple (L.GetsFind c) (O.run (blocks.map Call.get)) (fun replies _ => c.RepliesAll (blocks.map Call.get) replies)
      (fun _ _ => True) := by
  unfold Oram.run
  induction blocks with
  | nil => exact Triple.pure fun _ _ => trivial
  | cons block blocks ih =>
    rw [List.map_cons, List.mapM_cons]
    apply (get_triple hsmall (hb block List.mem_cons_self)).bind
    intro reply
    apply Triple.of_pure
    intro hreply
    apply (ih fun b hm => hb b (List.mem_cons_of_mem _ hm)).bind
    intro replies
    exact Triple.pure fun s h => ⟨hreply, h⟩

/-- **What is not found is lost**: a get returns nothing. -/
theorem lost_triple (hv : Shape O v) {block : ℕ} (hb : block < 2 ^ O.height * O.Z) (hlost : ¬ Found O v block) :
    Triple (L.Sees v) (O.get block []) (fun r _ => r = []) (fun _ _ => True) := by
  have hop : Op.Valid O ⟨true, block, []⟩ := ⟨hb, Nat.zero_le _⟩
  refine Triple.conseq (get_refines hv hop) (fun _ h => h) (fun r s hs => ?_) fun _ _ _ => trivial
  obtain ⟨v', ⟨v₁, v₂, ⟨cached, mapCalls, calls, hc, rfl⟩, hrun, hsync⟩, hs⟩ := hs
  cases hrun with
  | cons ha hnil =>
    obtain ⟨leaf, mid, cs, hleaf, ⟨blocks, missing, hblocks, -, rfl⟩, hr, -⟩ := ha
    rw [List.append_nil] at hr
    rw [hr]
    change (absorb v.stash blocks block).getD [] = []
    change ∀ x, x ∈ blocks ↔ ∃ ℓ ∈ path O.height (v.pos block), x ∈ v.tree ℓ at hblocks
    cases hd : absorb v.stash blocks block with
    | none => rfl
    | some d =>
      refine absurd ?_ hlost
      rcases of_absorb hd with hs | ⟨hm, -⟩
      · exact Or.inl ⟨d, hs⟩
      · obtain ⟨ℓ, hℓ, hx⟩ := (hblocks _).1 hm
        exact Or.inr ⟨ℓ, hℓ, _, hx, rfl⟩

end LawfulOram

end PathOram
