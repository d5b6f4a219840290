/-
What an ORAM is for, and the invariant that makes it so.

`Contents` is the abstract model: a map from IDs to payloads, which a write updates and a read leaves alone. `Inv c v`
says that the view v holds the contents c: every copy of a block carries its payload, copies in the tree lie on the
path of the block's leaf, and every block has a copy. It allows more copies than one, as an access that throws leaves
them. `Unique` says that there is one, which holds as long as nothing throws.

- `inv_accessed`: **an access answers like the map**, and the invariant is kept for the updated contents.
- `inv_interrupted`: an access that throws keeps the invariant if the new leaf of the block is one on whose path it
  already lies, or the block is not in the tree.
- `inv_served`, `inv_callStep`: the same for the accesses of a call, and for calls that return.
-/
import PathOram.Calls

namespace PathOram

open Lib

/-! ## The abstract model -/

/-- the payloads last written -/
abbrev Contents := ℕ → Option Bytes

namespace Contents

def apply (c : Contents) (op : Op) : Contents := if op.read then c else Function.update c op.block (some op.data)

/-- the answer of an access: the payload last written up to zero padding, or nothing; a write answers what it wrote -/
def Answers (c : Contents) (op : Op) (r : Bytes) : Prop :=
  if op.read then
    match c op.block with
    | some p => ZeroPadded p r
    | none => r = []
  else r = op.data

def after (c : Contents) (ops : List Op) : Contents := ops.foldl apply c

/-- answers to accesses in turn -/
def AnswersAll : Contents → List Op → List Bytes → Prop
  | _, [], [] => True
  | c, op :: ops, r :: rs => c.Answers op r ∧ AnswersAll (c.apply op) ops rs
  | _, _, _ => False

/-- the reply to a call -/
def Replies (c : Contents) : Call → Reply → Prop
  | .get block, .got r => c.Answers ⟨true, block, []⟩ r
  | .put _ _, .done => True
  | .multiple requests, .many rs => c.AnswersAll (Call.multiple requests).ops rs
  | _, _ => False

/-- replies to calls in turn -/
def RepliesAll : Contents → List Call → List Reply → Prop
  | _, [], [] => True
  | c, call :: calls, reply :: replies => c.Replies call reply ∧ RepliesAll (c.after call.ops) calls replies
  | _, _, _ => False

@[simp] theorem after_nil (c : Contents) : c.after [] = c := rfl

@[simp] theorem after_cons (c : Contents) (op : Op) (ops : List Op) : c.after (op :: ops) = (c.apply op).after ops := rfl

theorem after_append (c : Contents) (a b : List Op) : c.after (a ++ b) = (c.after a).after b := List.foldl_append

theorem apply_read (c : Contents) {op : Op} (h : op.read = true) : c.apply op = c := if_pos h

theorem apply_write (c : Contents) {op : Op} (h : op.read = false) : c.apply op = Function.update c op.block (some op.data) :=
  if_neg (by simp [h])

theorem apply_of_ne (c : Contents) (op : Op) {k : ℕ} (h : k ≠ op.block) : c.apply op k = c k := by
  unfold apply
  split_ifs
  · rfl
  · exact Function.update_of_ne h _ _

/-- the answer of a read -/
theorem answers_read (c : Contents) {op : Op} (hread : op.read = true) (r : Bytes) :
    c.Answers op r ↔ (∀ p, c op.block = some p → ZeroPadded p r) ∧ (c op.block = none → r = []) := by
  unfold Answers
  rw [if_pos hread]
  cases c op.block with
  | none => simp
  | some p => simp

theorem replies_of_answersAll {c : Contents} {call : Call} {rs : List Bytes} (h : c.AnswersAll call.ops rs) :
    c.Replies call (call.reply rs) := by
  cases call with
  | get block =>
    match rs, h with
    | [r], h => exact h.1
  | put block data => trivial
  | multiple requests => exact h

end Contents

/-! ## The invariant -/

/-- the IDs of the ORAM are exact as `int`s -/
def Oram.Small {β μ : Type} (O : Oram β μ) : Prop := 2 ^ O.height * O.Z ≤ 2 ^ 31

namespace LawfulOram

variable {β μ : Type} {O : Oram β μ} {L : LawfulOram O} {v v' : View} {c : Contents}

/-- a copy with the payload d of a block k is good -/
def Good (c : Contents) (k : ℕ) (d : Bytes) : Prop := ∃ p, c k = some p ∧ ZeroPadded p d

/-- a read is answered from good copies, if a block that is held has one -/
theorem answers_of_good {op : Op} (hread : op.read = true) {copies : ℕ → Option Bytes}
    (hgood : ∀ k d, copies k = some d → Good c k d) (hcopy : ∀ p, c op.block = some p → ∃ d, copies op.block = some d) :
    c.Answers op ((copies op.block).getD []) := by
  refine (c.answers_read hread _).2 ⟨fun p hc => ?_, fun hc => ?_⟩
  · obtain ⟨d, hd⟩ := hcopy p hc
    obtain ⟨p', hp', hz⟩ := hgood op.block d hd
    rw [hc] at hp'
    cases hp'
    rw [hd]
    exact hz
  · cases hd : copies op.block with
    | none => rfl
    | some d =>
      obtain ⟨p, hp, -⟩ := hgood op.block d hd
      rw [hc] at hp
      cases hp

/-- the view v holds the contents c -/
structure Inv (O : Oram β μ) (c : Contents) (v : View) : Prop extends Shape O v where
  stash_good : ∀ k d, v.stash k = some d → Good c k d
  tree_good : ∀ ℓ, ∀ x ∈ v.tree ℓ, x.1 ≠ ulongMax → Good c x.1 x.2
  tree_path : ∀ ℓ, ∀ x ∈ v.tree ℓ, x.1 ≠ ulongMax → ℓ ∈ path O.height (v.pos x.1)
  id_lt : ∀ k p, c k = some p → k < 2 ^ O.height * O.Z
  copy : ∀ k p, c k = some p → (∃ d, v.stash k = some d) ∨ ∃ ℓ, ∃ x ∈ v.tree ℓ, x.1 = k

/-- every block has one copy at most -/
structure Unique (v : View) : Prop where
  stash : ∀ k d, v.stash k = some d → ∀ ℓ, ∀ x ∈ v.tree ℓ, x.1 ≠ k
  bucket : ∀ ℓ, (((v.tree ℓ).filter fun x => x.1 ≠ ulongMax).map Prod.fst).Nodup
  tree : ∀ ℓ ℓ', ∀ x ∈ v.tree ℓ, ∀ y ∈ v.tree ℓ', x.1 = y.1 → x.1 ≠ ulongMax → ℓ = ℓ'

theorem ne_ulongMax (L : LawfulOram O) {k : ℕ} (h : k < 2 ^ O.height * O.Z) : k ≠ ulongMax := by
  have := L.blocks_lt
  unfold ulongMax
  omega

theorem Good.of_zeroPadded {k : ℕ} {d d' : Bytes} (h : Good c k d) (hd : ZeroPadded d d') : Good c k d' := by
  obtain ⟨p, hp, hz⟩ := h
  exact ⟨p, hp, hz.trans hd⟩

/-! ## Selected blocks -/

section Evicted

variable {leaf : ℕ} {cs : List Block}

theorem Evicted.keys_nodup (h : Evicted O v leaf cs v') :
    ((evicted (O.fits v.pos leaf) O.Z O.height cs ++ (evict (O.fits v.pos leaf) O.Z O.height cs).2).map Prod.fst).Nodup :=
  (((evict_perm (O.fits v.pos leaf) O.Z O.height cs).map Prod.fst).nodup_iff).2 h.lists.1

theorem Evicted.stash_of_mem (h : Evicted O v leaf cs v') {x : Block}
    (hx : x ∈ evicted (O.fits v.pos leaf) O.Z O.height cs) : v.stash x.1 = some x.2 :=
  (h.lists.2 x.1 x.2).1 ((evict_perm _ _ _ _).subset (List.mem_append_left _ hx))

/-- on IDs that are exact as `int`s, the IDs to delete are those selected -/
theorem Evicted.mem_removed (hsmall : O.Small) (hv : Shape O v) (h : Evicted O v leaf cs v') {k : ℕ} :
    k ∈ (evicted (O.fits v.pos leaf) O.Z O.height cs).map (fun b => ofInt (toInt b.1)) ↔
      k ∈ (evicted (O.fits v.pos leaf) O.Z O.height cs).map Prod.fst := by
  have hid : ∀ x ∈ evicted (O.fits v.pos leaf) O.Z O.height cs, ofInt (toInt x.1) = x.1 := fun x hx =>
    ofInt_toInt ((hv.stash_id _ _ (h.stash_of_mem hx)).trans_le hsmall)
  simp only [List.mem_map]
  exact exists_congr fun x => and_congr_right fun hx => by rw [hid x hx]

/-- a selected block has left the stash -/
theorem Evicted.stash_none (hsmall : O.Small) (hv : Shape O v) (h : Evicted O v leaf cs v') {x : Block}
    (hx : x ∈ evicted (O.fits v.pos leaf) O.Z O.height cs) : v'.stash x.1 = none := by
  rw [h.stash]
  exact if_pos ((h.mem_removed hsmall hv).2 (List.mem_map_of_mem hx))

/-- a block of the stash was selected or stays -/
theorem Evicted.evicted_or_stays (hsmall : O.Small) (hv : Shape O v) (h : Evicted O v leaf cs v') {k : ℕ} {d : Bytes}
    (hk : v.stash k = some d) : (k, d) ∈ evicted (O.fits v.pos leaf) O.Z O.height cs ∨ v'.stash k = some d := by
  have hm := (evict_perm (O.fits v.pos leaf) O.Z O.height cs).symm.subset ((h.lists.2 k d).2 hk)
  apply (List.mem_append.1 hm).imp_right
  intro hrest
  have hn : k ∉ (evicted (O.fits v.pos leaf) O.Z O.height cs).map Prod.fst := by
    have hdisj := h.keys_nodup
    rw [List.map_append, List.nodup_append'] at hdisj
    exact fun hk' => hdisj.2.2 hk' (List.mem_map_of_mem hrest)
  rw [h.stash]
  exact (if_neg fun hk' => hn ((h.mem_removed hsmall hv).1 hk')).trans hk

end Evicted

/-! ## One access -/

/-- the stash in the middle of an access: the path was read, and a write has put its payload in -/
structure Fetched (O : Oram β μ) (c : Contents) (v : View) (op : Op) (leaf : ℕ) (w : View) : Prop where
  pos : w.pos = Function.update v.pos op.block leaf
  tree : w.tree = v.tree
  good : ∀ k d, w.stash k = some d → Good (c.apply op) k d
  /-- what is not in the stash is off the path that was read -/
  copy : ∀ k p, c.apply op k = some p → (∃ d, w.stash k = some d) ∨
    ∃ ℓ, ℓ ∉ path O.height (v.pos op.block) ∧ k ≠ op.block ∧ ∃ x ∈ v.tree ℓ, x.1 = k
  answer : c.Answers op ((w.stash op.block).getD [])
  /-- where the stash comes from -/
  origin : ∀ k d, w.stash k = some d → k = op.block ∨ v.stash k = some d ∨
    ∃ ℓ ∈ path O.height (v.pos op.block), (k, d) ∈ v.tree ℓ

theorem fetched_of_pathRead (L : LawfulOram O) (hv : Inv O c v) {op : Op} {leaf : ℕ} {mid : View}
    (hr : PathRead O (remapped v op.block leaf) (v.pos op.block) mid) : Fetched O c v op leaf (updated op mid) := by
  obtain ⟨blocks, missing, hblocks, -, rfl⟩ := hr
  change ∀ x, x ∈ blocks ↔ ∃ ℓ ∈ path O.height (v.pos op.block), x ∈ v.tree ℓ at hblocks
  have horigin : ∀ k d, absorb v.stash blocks k = some d →
      v.stash k = some d ∨ k ≠ ulongMax ∧ ∃ ℓ ∈ path O.height (v.pos op.block), (k, d) ∈ v.tree ℓ := fun k d hk =>
    (of_absorb hk).imp_right fun h => ⟨h.2, (hblocks _).1 h.1⟩
  have hgood : ∀ k d, absorb v.stash blocks k = some d → Good c k d := by
    intro k d hk
    rcases horigin k d hk with hs | ⟨hne, ℓ, -, hx⟩
    · exact hv.stash_good k d hs
    · exact hv.tree_good ℓ _ hx hne
  have hcopy : ∀ k p, c k = some p → (∃ d, absorb v.stash blocks k = some d) ∨
      ∃ ℓ, ℓ ∉ path O.height (v.pos op.block) ∧ k ≠ op.block ∧ ∃ x ∈ v.tree ℓ, x.1 = k := by
    intro k p hk
    have hne := ne_ulongMax L (hv.id_lt k p hk)
    rcases hv.copy k p hk with ⟨d, hd⟩ | ⟨ℓ, x, hx, rfl⟩
    · exact Or.inl ⟨d, absorb_of_some hd _⟩
    · by_cases hp : ℓ ∈ path O.height (v.pos op.block)
      · exact Or.inl (absorb_of_mem ((hblocks x).2 ⟨ℓ, hp, hx⟩) hne)
      · refine Or.inr ⟨ℓ, hp, fun he => hp ?_, x, hx, rfl⟩
        rw [← he]
        exact hv.tree_path ℓ x hx hne
  cases hread : op.read with
  | true =>
    have hw : ∀ w : View, updated op w = w := fun w => if_pos hread
    rw [hw]
    refine ⟨rfl, rfl, fun k d hk => ?_, fun k p hk => ?_, ?_, fun k d hk => ?_⟩
    · rw [c.apply_read hread]
      exact hgood k d hk
    · rw [c.apply_read hread] at hk
      exact hcopy k p hk
    · apply answers_of_good hread hgood
      intro p hc
      rcases hcopy op.block p hc with hd | ⟨ℓ, -, hne, -⟩
      · exact hd
      · exact absurd rfl hne
    · exact Or.inr ((horigin k d hk).imp_right fun h => h.2)
  | false =>
    have hw : ∀ w : View, updated op w = { w with stash := Function.update w.stash op.block (some op.data) } :=
      fun w => if_neg (by simp [hread])
    rw [hw]
    refine ⟨rfl, rfl, fun k d hk => ?_, fun k p hk => ?_, ?_, fun k d hk => ?_⟩
    · change Function.update (absorb v.stash blocks) op.block (some op.data) k = some d at hk
      rw [c.apply_write hread]
      rcases eq_or_ne k op.block with rfl | hne
      · rw [Function.update_self] at hk
        cases hk
        exact ⟨op.data, Function.update_self _ _ _, ZeroPadded.refl _⟩
      · rw [Function.update_of_ne hne] at hk
        obtain ⟨p, hp, hz⟩ := hgood k d hk
        exact ⟨p, by rw [Function.update_of_ne hne, hp], hz⟩
    · change (∃ d, Function.update (absorb v.stash blocks) op.block (some op.data) k = some d) ∨ _
      rcases eq_or_ne k op.block with rfl | hne
      · exact Or.inl ⟨op.data, Function.update_self _ _ _⟩
      · rw [c.apply_of_ne op hne] at hk
        rw [Function.update_of_ne hne]
        exact hcopy k p hk
    · unfold Contents.Answers
      rw [if_neg (by simp [hread])]
      change (Function.update (absorb v.stash blocks) op.block (some op.data) op.block).getD [] = op.data
      rw [Function.update_self]
      rfl
    · change Function.update (absorb v.stash blocks) op.block (some op.data) k = some d at hk
      rcases eq_or_ne k op.block with rfl | hne
      · exact Or.inl rfl
      · rw [Function.update_of_ne hne] at hk
        exact Or.inr ((horigin k d hk).imp_right fun h => h.2)

/-- **An access answers like the map**, and the view reached holds the updated contents. -/
theorem inv_accessed (L : LawfulOram O) (hsmall : O.Small) (hv : Inv O c v) {op : Op} (hop : op.Valid O) {r : Bytes}
    (ha : Accessed O v op [] r v') : Inv O (c.apply op) v' ∧ c.Answers op r := by
  have hshape := shape_accessed L hv.toShape hop.block_lt hop.data_le ha
  obtain ⟨leaf, mid, cs, hleaf, hread, hr, hev⟩ := ha
  have hf := fetched_of_pathRead L hv hread
  have hpos := hv.pos_lt _ hop.block_lt
  have hmid := shape_updated (shape_pathRead L (shape_remapped hv.toShape hleaf) hpos hread) hop.block_lt hop.data_le
  set w := updated op mid with hw
  rw [List.append_nil] at hr
  refine ⟨⟨hshape, fun k d hk => hf.good k d (hev.stash_some hk), fun ℓ x hx hne => ?_, fun ℓ x hx hne => ?_, ?_, ?_⟩,
    hr ▸ hf.answer⟩
  · by_cases hp : ℓ ∈ path O.height (v.pos op.block)
    · rcases hev.of_mem_path hp hx with hd | ⟨hs, -, -⟩
      · exact absurd hd.1 hne
      · exact hf.good _ _ hs
    · rw [hev.off_path ℓ hp, hf.tree] at hx
      have hb : x.1 ≠ op.block := fun he => hp (he ▸ hv.tree_path ℓ x hx hne)
      obtain ⟨p, hpp, hz⟩ := hv.tree_good ℓ x hx hne
      exact ⟨p, (c.apply_of_ne op hb).trans hpp, hz⟩
  · by_cases hp : ℓ ∈ path O.height (v.pos op.block)
    · rcases hev.of_mem_path hp hx with hd | ⟨hs, -, level, hlevel, rfl, hfit⟩
      · exact absurd hd.1 hne
      · have hx' := hmid.pos_lt _ (hmid.stash_id _ _ hs)
        rw [L.canInclude_iff hlevel hx' hpos] at hfit
        rw [← hfit, hev.pos]
        exact mem_path.2 ⟨level, hlevel, rfl⟩
    · rw [hev.off_path ℓ hp, hf.tree] at hx
      have hb : x.1 ≠ op.block := fun he => hp (he ▸ hv.tree_path ℓ x hx hne)
      rw [hev.pos, hf.pos, Function.update_of_ne hb]
      exact hv.tree_path ℓ x hx hne
  · intro k p hk
    rcases eq_or_ne k op.block with rfl | hne
    · exact hop.block_lt
    · exact hv.id_lt k p (by rwa [c.apply_of_ne op hne] at hk)
  · intro k p hk
    rcases hf.copy k p hk with ⟨d, hd⟩ | ⟨ℓ, hp, -, x, hx, rfl⟩
    · rcases hev.evicted_or_stays hsmall hmid hd with he | hs
      · obtain ⟨ℓ, -, hx⟩ := hev.mem_path_of_evicted he
        exact Or.inr ⟨ℓ, _, hx, rfl⟩
      · exact Or.inl ⟨d, hs⟩
    · exact Or.inr ⟨ℓ, x, by rwa [hev.off_path ℓ hp, hf.tree], rfl⟩

/-- **An access that throws loses nothing if its block is settled**: where the tree has a copy of the block, it lies on
the path of the new leaf. -/
theorem inv_interrupted (L : LawfulOram O) (hv : Inv O c v) {op : Op} (hop : op.block < 2 ^ O.height * O.Z)
    {e : Exception} (hi : Interrupted L v op e v')
    (hsettled : ∀ ℓ, ∀ x ∈ v.tree ℓ, x.1 = op.block → ℓ ∈ path O.height (v'.pos op.block)) : Inv O c v' := by
  have hshape := shape_interrupted L hv.toShape hop hi
  obtain ⟨-, leaf, hleaf, blocks, cached, calls, hblocks, -, rfl⟩ := hi
  refine ⟨hshape, fun k d hk => ?_, hv.tree_good, fun ℓ x hx hne => ?_, hv.id_lt, fun k p hk => ?_⟩
  · rcases of_absorb hk with hs | ⟨hm, hne⟩
    · exact hv.stash_good k d hs
    · obtain ⟨ℓ, -, hx⟩ := hblocks _ hm
      exact hv.tree_good ℓ _ hx hne
  · rcases eq_or_ne x.1 op.block with he | hb
    · rw [he]
      exact hsettled ℓ x hx he
    · change ℓ ∈ path O.height (Function.update v.pos op.block leaf x.1)
      rw [Function.update_of_ne hb]
      exact hv.tree_path ℓ x hx hne
  · rcases hv.copy k p hk with ⟨d, hd⟩ | hx
    · exact Or.inl ⟨d, absorb_of_some hd _⟩
    · exact Or.inr hx

/-! ## Uploads and downloads -/

theorem inv_padded (hv : Inv O c v) {cached : ℕ → Bool} (hc : ∀ ℓ, cached ℓ = true → v.cached ℓ = true)
    {calls : List StorageCall} : Inv O c { v with tree := padded O v, cached := cached, calls := calls } := by
  refine ⟨shape_padded hv.toShape hc, hv.stash_good, fun ℓ x hx hne => ?_, fun ℓ x hx hne => ?_, hv.id_lt, fun k p hk => ?_⟩
  · obtain ⟨y, hy, h1, h2⟩ := mem_padded hx
    rw [h1] at hne ⊢
    have hg := hv.tree_good ℓ y hy hne
    rcases h2 with h2 | h2
    · exact h2 ▸ hg
    · exact h2 ▸ hg.of_zeroPadded (zeroPadded_zeroPad _ _)
  · obtain ⟨y, hy, h1, -⟩ := mem_padded hx
    rw [h1] at hne ⊢
    exact hv.tree_path ℓ y hy hne
  · refine (hv.copy k p hk).imp_right fun ⟨ℓ, x, hx, hxk⟩ => ⟨ℓ, ?_⟩
    change ∃ x ∈ padded O v ℓ, x.1 = k
    unfold padded
    split_ifs
    · exact ⟨_, List.mem_map_of_mem hx, hxk⟩
    · exact ⟨x, hx, hxk⟩

theorem inv_prepared (hv : Inv O c v) (hp : Prepared O v v') : Inv O c v' := by
  have hshape := shape_prepared hv.toShape hp
  obtain ⟨cached, mapCalls, calls, -, rfl⟩ := hp
  exact ⟨hshape, hv.stash_good, hv.tree_good, hv.tree_path, hv.id_lt, hv.copy⟩

theorem inv_synced (hv : Inv O c v) (hs : Synced O v v') : Inv O c v' := by
  obtain ⟨requests, call, -, -, -, rfl⟩ := hs
  exact inv_padded hv fun ℓ h => by simp at h

theorem inv_uploadFault (hv : Inv O c v) {e : Exception} (hf : UploadFault L v e v') : Inv O c v' := by
  obtain ⟨-, call, rfl⟩ := hf
  exact inv_padded hv fun _ h => h

/-! ## Calls -/

theorem inv_accessRun (L : LawfulOram O) (hsmall : O.Small) {ops : List Op} {rs : List Bytes}
    (h : AccessRun O v ops rs v') (hv : Inv O c v) (hops : ∀ op ∈ ops, op.Valid O) :
    Inv O (c.after ops) v' ∧ c.AnswersAll ops rs := by
  induction h generalizing c with
  | nil => exact ⟨hv, trivial⟩
  | cons ha _ ih =>
    obtain ⟨h₁, hr⟩ := inv_accessed L hsmall hv (hops _ List.mem_cons_self) ha
    obtain ⟨h₂, hrs⟩ := ih h₁ fun op hm => hops op (List.mem_cons_of_mem _ hm)
    exact ⟨h₂, hr, hrs⟩

/-- **The accesses of a call answer like the map.** -/
theorem inv_served (L : LawfulOram O) (hsmall : O.Small) (hv : Inv O c v) {ops : List Op} (hops : ∀ op ∈ ops, op.Valid O)
    {rs : List Bytes} (h : Served O v ops rs v') : Inv O (c.after ops) v' ∧ c.AnswersAll ops rs := by
  obtain ⟨v₁, hp, hr⟩ := h
  exact inv_accessRun L hsmall hr (inv_prepared hv hp) hops

/-- **A call answers like the map.** -/
theorem inv_callStep (L : LawfulOram O) (hsmall : O.Small) (hv : Inv O c v) {ops : List Op} (hops : ∀ op ∈ ops, op.Valid O)
    {rs : List Bytes} (h : CallStep O v ops rs v') : Inv O (c.after ops) v' ∧ c.AnswersAll ops rs := by
  obtain ⟨v₁, v₂, hp, hr, hs⟩ := h
  obtain ⟨h₂, hrs⟩ := inv_served L hsmall hv hops ⟨v₁, hp, hr⟩
  exact ⟨inv_synced h₂ hs, hrs⟩

end LawfulOram

end PathOram
