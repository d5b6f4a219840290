/-
An access as a step between views.

- `Accessed`: remap, read the path, update the stash, evict. `Interrupted` is what is left when the path could not be
  read or the stash was full: the block is remapped, the tree is what it was.
- `access_refines`: **an access that returns is the first, one that throws the second**, from any view with the `Shape`.
- `Shape`: every leaf, bucket and block is of the size the code expects. It is all that is needed for the methods to
  run, and every step keeps it (`shape_accessed`, `shape_interrupted`, `shape_padded`).
-/
import PathOram.Eviction

namespace PathOram

open Lib

/-- the arguments of an access -/
structure Op where
  read : Bool
  block : ℕ
  data : Bytes
deriving DecidableEq, Repr

/-- the accesses that a call makes -/
def Call.ops : Call → List Op
  | .get block => [⟨true, block, []⟩]
  | .put block data => [⟨false, block, data⟩]
  | .multiple requests => requests.map fun r => ⟨r.2.length == 0, r.1, r.2⟩

/-- what a call returns when its accesses return these responses -/
def Call.reply : Call → List Bytes → Reply
  | .get _, responses => .got (responses.headD [])
  | .put _ _, _ => .done
  | .multiple _, responses => .many responses

section

variable {β μ : Type} (O : Oram β μ)

/-- the first step of an access, which returns the position that the block had -/
def Oram.remap (block : ℕ) : Run (OramState β μ) ℕ := do
  let previousPosition ← Oram.onMap (O.map.get block)
  let leaf ← getRandomULong (shlOne (O.height - 1))
  Oram.onMap (O.map.set block leaf)
  return previousPosition

/-- the third and the fourth step of an access -/
def Oram.finishAccess (read : Bool) (block : ℕ) (data response : Bytes) (previousPosition : ℕ) :
    Run (OramState β μ) Bytes := do
  if !read then Oram.onStash (O.stash.update block data) else pure ()
  let response ← Oram.onStash (InMemoryStashAdapter.get block response)
  O.writePath previousPosition
  return response

theorem access_eq (read : Bool) (block : ℕ) (data response : Bytes) :
    O.access read block data response = (do
      let previousPosition ← O.remap block
      let _ ← O.readPath previousPosition [] true
      O.finishAccess read block data response previousPosition) := by
  simp only [Oram.access, Oram.remap, Oram.finishAccess, bind_assoc, pure_bind]

end

namespace LawfulOram

variable {β μ : Type} {O : Oram β μ} {L : LawfulOram O} {v v' : View}

/-! ## The shape of a view -/

/-- leaves are leaves of the tree, buckets are full, blocks are dummies or have IDs and payloads of the right size -/
structure Shape (O : Oram β μ) (v : View) : Prop where
  pos_lt : ∀ i < 2 ^ O.height * O.Z, v.pos i < 2 ^ (O.height - 1)
  bucket_length : ∀ ℓ < O.storage.capacity, (v.tree ℓ).length = O.Z
  tree_id : ∀ ℓ, ∀ x ∈ v.tree ℓ, x.1 = ulongMax ∨ x.1 < 2 ^ O.height * O.Z
  tree_data : ∀ ℓ, ∀ x ∈ v.tree ℓ, x.2.length ≤ O.storage.userBlockSize
  stash_id : ∀ k d, v.stash k = some d → k < 2 ^ O.height * O.Z
  stash_data : ∀ k d, v.stash k = some d → d.length ≤ O.storage.userBlockSize
  cached_lt : ∀ ℓ, v.cached ℓ = true → ℓ < O.storage.capacity

theorem Shape.flushable (L : LawfulOram O) (h : Shape O v) : Flushable O v := by
  intro ℓ hℓ
  have hlt := h.cached_lt ℓ hℓ
  refine ⟨hlt, by rw [h.bucket_length ℓ hlt, L.Z_eq], h.tree_data ℓ, fun b hb => ?_⟩
  rcases h.tree_id ℓ b hb with hd | hd
  · rw [hd]
    norm_num [ulongMax]
  · exact hd.trans L.blocks_lt

theorem shape_absorb (h : Shape O v) {blocks : List Block} (hb : ∀ x ∈ blocks, ∃ ℓ, x ∈ v.tree ℓ) {k : ℕ} {d : Bytes}
    (hk : absorb v.stash blocks k = some d) : k < 2 ^ O.height * O.Z ∧ d.length ≤ O.storage.userBlockSize := by
  rcases of_absorb hk with hs | ⟨hm, hne⟩
  · exact ⟨h.stash_id k d hs, h.stash_data k d hs⟩
  · obtain ⟨ℓ, hx⟩ := hb _ hm
    exact ⟨(h.tree_id ℓ _ hx).resolve_left hne, h.tree_data ℓ _ hx⟩

/-! ## The steps -/

/-- the block is remapped -/
def remapped (v : View) (block leaf : ℕ) : View :=
  { v with pos := Function.update v.pos block leaf,
           mapCalls := v.mapCalls ++ [.get block (v.pos block), .set block leaf] }

/-- a write puts its payload into the stash -/
def updated (op : Op) (v : View) : View :=
  if op.read then v else { v with stash := Function.update v.stash op.block (some op.data) }

/-- the step of an access -/
def Accessed (O : Oram β μ) (v : View) (op : Op) (response r : Bytes) (v' : View) : Prop :=
  ∃ leaf mid cs, leaf < 2 ^ (O.height - 1) ∧ PathRead O (remapped v op.block leaf) (v.pos op.block) mid ∧
    r = ((updated op mid).stash op.block).getD [] ++ response ∧ Evicted O (updated op mid) (v.pos op.block) cs v'

/-- what an access throws: a fault of the storage or an overflow, if the stash cannot take all blocks of the ORAM -/
def AccessFault (L : LawfulOram O) (e : Exception) : Prop :=
  L.storage.fault e ∨ IsOverflow e ∧ O.stash.capacity < 2 ^ O.height * O.Z

/-- an access that threw: some blocks of the old path are in the stash as well as in the tree -/
def Interrupted (L : LawfulOram O) (v : View) (op : Op) (e : Exception) (v' : View) : Prop :=
  AccessFault L e ∧ ∃ leaf, leaf < 2 ^ (O.height - 1) ∧ ∃ blocks cached calls,
    (∀ x ∈ blocks, ∃ ℓ ∈ path O.height (v.pos op.block), x ∈ v.tree ℓ) ∧
    (∀ ℓ, cached ℓ = true → v.cached ℓ = true ∨ ℓ ∈ path O.height (v.pos op.block)) ∧
    v' = { remapped v op.block leaf with stash := absorb v.stash blocks, cached := cached, calls := calls }

theorem remap_refines (L : LawfulOram O) {block : ℕ} (hb : block < 2 ^ O.height * O.Z) {F : Exception → View → Prop} :
    Refines L.Sees v (O.remap block)
      (fun previousPosition v' => previousPosition = v.pos block ∧
        ∃ leaf, leaf < 2 ^ (O.height - 1) ∧ v' = remapped v block leaf) (L.Fails F) := by
  unfold Oram.remap
  refine (map_get_refines hb).bind fun p v₁ ⟨hp, hv₁⟩ => ?_
  subst hp hv₁
  refine (randomLeaf_refines L).bind fun leaf v₂ ⟨hleaf, hv₂⟩ => ?_
  subst v₂
  apply (map_set_refines hb (hleaf.trans_le (L.leaves_le.trans (by norm_num)))).bind
  intro _ v₃ hv₃
  exact Refines.pure ⟨rfl, leaf, hleaf, by rw [hv₃]; simp [remapped]⟩

/-- the third and the fourth step of an access -/
theorem finishAccess_refines {op : Op} {mid : View} {leaf : ℕ} (hf : leaf < 2 ^ (O.height - 1))
    (hids : ∀ k d, (updated op mid).stash k = some d → k < 2 ^ O.height * O.Z) (response : Bytes) :
    Refines L.Sees mid (O.finishAccess op.read op.block op.data response leaf)
      (fun r v' => r = ((updated op mid).stash op.block).getD [] ++ response ∧ ∃ cs, Evicted O (updated op mid) leaf cs v')
      (L.Fails fun e v' => (IsOverflow e ∧ StashFull O mid.stash op.block) ∧ v' = mid) := by
  have hrest : Refines L.Sees (updated op mid) (do
        let response ← Oram.onStash (InMemoryStashAdapter.get op.block response)
        O.writePath leaf
        return response)
      (fun r v' => r = ((updated op mid).stash op.block).getD [] ++ response ∧ ∃ cs, Evicted O (updated op mid) leaf cs v')
      (L.Fails fun e v' => (IsOverflow e ∧ StashFull O mid.stash op.block) ∧ v' = mid) := by
    refine (stashGet_refines op.block response).bind fun r v₁ ⟨hr, hv₁⟩ => ?_
    subst v₁
    exact (writePath_refines hf hids).bind fun _ v₂ hev => Refines.pure ⟨hr, hev⟩
  unfold Oram.finishAccess
  refine Triple.ite (fun h => ?_) (fun h => ?_)
  · have hop : op.read = false := by simpa using h
    refine (stashUpdate_refines op.block op.data).bind ?_
    rintro _ v₁ rfl
    simpa [updated, hop] using hrest
  · have hop : updated op mid = mid := if_pos (by simpa using h)
    rw [hop] at hrest ⊢
    exact hrest

/-- **`access`.** -/
theorem access_refines (hv : Shape O v) {op : Op} (hb : op.block < 2 ^ O.height * O.Z) (response : Bytes) :
    Refines L.Sees v (O.access op.read op.block op.data response) (Accessed O v op response)
      (L.Fails (Interrupted L v op)) := by
  have hpos := hv.pos_lt _ hb
  have hstash : ∀ {blocks : List Block} {leaf : ℕ}, (∀ x ∈ blocks, ∃ ℓ ∈ path O.height (v.pos op.block), x ∈ v.tree ℓ) →
      ∀ k d, absorb (remapped v op.block leaf).stash blocks k = some d → k < 2 ^ O.height * O.Z := fun hblocks k d hd =>
    (shape_absorb hv (fun x hx => (hblocks x hx).imp fun _ h => h.2) hd).1
  rw [access_eq]
  refine (remap_refines L hb).bind ?_
  rintro _ v₁ ⟨rfl, leaf, hleaf, rfl⟩
  refine Refines.bind (refines_mono (readPath_refines hpos hv.bucket_length) (fun _ _ h => h) ?_) ?_
  · rintro e v' ⟨he, blocks, cached, calls, hblocks, hcached, rfl⟩
    refine ⟨he.imp_right ?_, leaf, hleaf, blocks, cached, calls, hblocks, hcached, rfl⟩
    rintro ⟨hover, b, ⟨ℓ, -, hb⟩, hne, hfull⟩
    exact ⟨hover, hfull.capacity_lt (hstash hblocks) ((hv.tree_id ℓ b hb).resolve_left hne)⟩
  intro _ mid hread
  obtain ⟨blocks, missing, hblocks, hmissing, hmid⟩ := id hread
  have hmk : ∀ k d, mid.stash k = some d → k < 2 ^ O.height * O.Z := by
    rw [hmid]
    exact hstash fun x hx => (hblocks x).1 hx
  have hids : ∀ k d, (updated op mid).stash k = some d → k < 2 ^ O.height * O.Z := by
    intro k d hk
    unfold updated at hk
    split_ifs at hk
    · exact hmk k d hk
    · rcases eq_or_ne k op.block with rfl | hne
      · exact hb
      · exact hmk k d (by simpa [hne] using hk)
  refine refines_mono (finishAccess_refines hpos hids response) ?_ ?_
  · rintro r v' ⟨hr, cs, hev⟩
    exact ⟨leaf, mid, cs, hleaf, hread, hr, hev⟩
  · rintro e v' ⟨⟨he, hfull⟩, rfl⟩
    refine ⟨Or.inr ⟨he, hfull.capacity_lt hmk hb⟩, leaf, hleaf, blocks, _, _, fun x hx => (hblocks x).1 hx, fun ℓ h => ?_, hmid⟩
    simpa [remapped] using h

/-! ## Selected blocks -/

/-- what is on the path after an eviction is a dummy or was selected for its level -/
theorem Evicted.of_mem_path {leaf : ℕ} {cs : List Block} (h : Evicted O v leaf cs v') {ℓ : ℕ}
    (hℓ : ℓ ∈ path O.height leaf) {x : Block} (hx : x ∈ v'.tree ℓ) :
    (x.1 = ulongMax ∧ x.2.length = O.dataSize) ∨ v.stash x.1 = some x.2 ∧
      x ∈ evicted (O.fits v.pos leaf) O.Z O.height cs ∧
      ∃ level < O.height, ℓ = node O.height level leaf ∧ O.canInclude (v.pos x.1) leaf level = true := by
  obtain ⟨level, hlevel, rfl⟩ := mem_path.1 hℓ
  have hmem : level ∈ (evict (O.fits v.pos leaf) O.Z O.height cs).1.map Prod.fst := by
    rw [evict_levels, List.mem_reverse]
    exact List.mem_range.2 hlevel
  obtain ⟨y, hy, rfl⟩ := List.mem_map.1 hmem
  obtain ⟨dummies, hb, -, hd⟩ := h.on_path y hy
  rw [hb, List.mem_append, List.mem_reverse] at hx
  rcases hx with hx | hx
  · have hev : x ∈ evicted (O.fits v.pos leaf) O.Z O.height cs := List.mem_flatMap.2 ⟨y, hy, hx⟩
    have hcs : x ∈ cs := (evict_perm _ _ _ _).subset (List.mem_append_left _ hev)
    exact Or.inr ⟨(h.lists.2 x.1 x.2).1 hcs, hev, y.1, hlevel, rfl, (evict_fits _ _ hy).2.2 x hx⟩
  · exact Or.inl (hd x hx)

/-- a selected block is on the path -/
theorem Evicted.mem_path_of_evicted {leaf : ℕ} {cs : List Block} (h : Evicted O v leaf cs v') {x : Block}
    (hx : x ∈ evicted (O.fits v.pos leaf) O.Z O.height cs) : ∃ ℓ ∈ path O.height leaf, x ∈ v'.tree ℓ := by
  obtain ⟨y, hy, hxy⟩ := List.mem_flatMap.1 hx
  obtain ⟨dummies, hb, -, -⟩ := h.on_path y hy
  refine ⟨node O.height y.1 leaf, mem_path.2 ⟨y.1, (evict_fits _ _ hy).1, rfl⟩, ?_⟩
  rw [hb]
  exact List.mem_append_left _ (List.mem_reverse.2 hxy)

/-- the buckets of the path are full -/
theorem Evicted.length_of_mem_path {leaf : ℕ} {cs : List Block} (h : Evicted O v leaf cs v') {ℓ : ℕ}
    (hℓ : ℓ ∈ path O.height leaf) : (v'.tree ℓ).length = O.Z := by
  obtain ⟨level, hlevel, rfl⟩ := mem_path.1 hℓ
  have hmem : level ∈ (evict (O.fits v.pos leaf) O.Z O.height cs).1.map Prod.fst := by
    rw [evict_levels, List.mem_reverse]
    exact List.mem_range.2 hlevel
  obtain ⟨y, hy, rfl⟩ := List.mem_map.1 hmem
  obtain ⟨dummies, hb, hlen, -⟩ := h.on_path y hy
  rw [hb, List.length_append, List.length_reverse, hlen]

theorem Evicted.stash_some {leaf : ℕ} {cs : List Block} (h : Evicted O v leaf cs v') {k : ℕ} {d : Bytes}
    (hk : v'.stash k = some d) : v.stash k = some d := by
  simp only [h.stash] at hk
  split_ifs at hk
  exact hk

/-! ## Steps keep the shape -/

theorem shape_remapped (h : Shape O v) {block leaf : ℕ} (hl : leaf < 2 ^ (O.height - 1)) : Shape O (remapped v block leaf) where
  pos_lt i hi := by
    change Function.update v.pos block leaf i < _
    rw [Function.update_apply]
    split_ifs
    · exact hl
    · exact h.pos_lt i hi
  bucket_length := h.bucket_length
  tree_id := h.tree_id
  tree_data := h.tree_data
  stash_id := h.stash_id
  stash_data := h.stash_data
  cached_lt := h.cached_lt

theorem shape_pathRead (L : LawfulOram O) (h : Shape O v) {leaf : ℕ} (hl : leaf < 2 ^ (O.height - 1))
    (hr : PathRead O v leaf v') : Shape O v' := by
  obtain ⟨blocks, missing, hblocks, -, rfl⟩ := hr
  have hb : ∀ x ∈ blocks, ∃ ℓ, x ∈ v.tree ℓ := fun x hx => ((hblocks x).1 hx).imp fun _ h => h.2
  refine ⟨h.pos_lt, h.bucket_length, h.tree_id, h.tree_data, fun k d hk => (shape_absorb h hb hk).1,
    fun k d hk => (shape_absorb h hb hk).2, fun ℓ hℓ => ?_⟩
  rcases (Bool.or_eq_true _ _).mp hℓ with hc | hp
  · exact h.cached_lt ℓ hc
  · exact L.mem_path_capacity hl (of_decide_eq_true hp)

theorem shape_updated (h : Shape O v) {op : Op} (hb : op.block < 2 ^ O.height * O.Z)
    (hd : op.data.length ≤ O.storage.userBlockSize) : Shape O (updated op v) := by
  unfold updated
  split_ifs
  · exact h
  · refine ⟨h.pos_lt, h.bucket_length, h.tree_id, h.tree_data, fun k d hk => ?_, fun k d hk => ?_, h.cached_lt⟩
    all_goals
      rcases eq_or_ne k op.block with rfl | hne
      · simp only [Function.update_self, Option.some.injEq] at hk
        first | exact hb | exact hk ▸ hd
      · simp only [Function.update_of_ne hne] at hk
        first | exact h.stash_id k d hk | exact h.stash_data k d hk

theorem shape_evicted (L : LawfulOram O) (h : Shape O v) {leaf : ℕ} (hl : leaf < 2 ^ (O.height - 1)) {cs : List Block}
    (he : Evicted O v leaf cs v') : Shape O v' where
  pos_lt i hi := he.pos ▸ h.pos_lt i hi
  bucket_length ℓ hℓ := by
    by_cases hp : ℓ ∈ path O.height leaf
    · exact he.length_of_mem_path hp
    · rw [he.off_path ℓ hp]
      exact h.bucket_length ℓ hℓ
  tree_id ℓ x hx := by
    by_cases hp : ℓ ∈ path O.height leaf
    · rcases he.of_mem_path hp hx with hd | hs
      · exact Or.inl hd.1
      · exact Or.inr (h.stash_id _ _ hs.1)
    · rw [he.off_path ℓ hp] at hx
      exact h.tree_id ℓ x hx
  tree_data ℓ x hx := by
    by_cases hp : ℓ ∈ path O.height leaf
    · rcases he.of_mem_path hp hx with hd | hs
      · rw [hd.2, L.dataSize_eq]
      · exact h.stash_data _ _ hs.1
    · rw [he.off_path ℓ hp] at hx
      exact h.tree_data ℓ x hx
  stash_id k d hk := h.stash_id k d (he.stash_some hk)
  stash_data k d hk := h.stash_data k d (he.stash_some hk)
  cached_lt ℓ hℓ := by
    rw [he.cached] at hℓ
    rcases (Bool.or_eq_true _ _).mp hℓ with hc | hp
    · exact h.cached_lt ℓ hc
    · exact L.mem_path_capacity hl (of_decide_eq_true hp)

theorem shape_accessed (L : LawfulOram O) (h : Shape O v) {op : Op} (hb : op.block < 2 ^ O.height * O.Z)
    (hd : op.data.length ≤ O.storage.userBlockSize) {response r : Bytes} (ha : Accessed O v op response r v') :
    Shape O v' := by
  obtain ⟨leaf, mid, cs, hleaf, hread, -, hev⟩ := ha
  have hpos := h.pos_lt _ hb
  exact shape_evicted L (shape_updated (shape_pathRead L (shape_remapped h hleaf) hpos hread) hb hd) hpos hev

theorem shape_interrupted (L : LawfulOram O) (h : Shape O v) {op : Op} (hb : op.block < 2 ^ O.height * O.Z)
    {e : Exception} (hi : Interrupted L v op e v') : Shape O v' := by
  obtain ⟨-, leaf, hleaf, blocks, cached, calls, hblocks, hcached, rfl⟩ := hi
  have hm : ∀ x ∈ blocks, ∃ ℓ, x ∈ v.tree ℓ := fun x hx => (hblocks x hx).imp fun _ h => h.2
  refine ⟨(shape_remapped h hleaf).pos_lt, h.bucket_length, h.tree_id, h.tree_data, fun k d hk => (shape_absorb h hm hk).1,
    fun k d hk => (shape_absorb h hm hk).2, fun ℓ hℓ => ?_⟩
  rcases hcached ℓ hℓ with hc | hp
  · exact h.cached_lt ℓ hc
  · exact L.mem_path_capacity (h.pos_lt _ hb) hp

theorem mem_padded {ℓ : ℕ} {x : Block} (h : x ∈ padded O v ℓ) :
    ∃ y ∈ v.tree ℓ, x.1 = y.1 ∧ (x.2 = y.2 ∨ x.2 = zeroPad O.storage.userBlockSize y.2) := by
  unfold padded at h
  split_ifs at h
  · obtain ⟨y, hy, rfl⟩ := List.mem_map.1 h
    exact ⟨y, hy, rfl, Or.inr rfl⟩
  · exact ⟨x, h, rfl, Or.inl rfl⟩

theorem shape_padded (h : Shape O v) {cached : ℕ → Bool} (hc : ∀ ℓ, cached ℓ = true → v.cached ℓ = true)
    {calls : List StorageCall} : Shape O { v with tree := padded O v, cached := cached, calls := calls } where
  pos_lt := h.pos_lt
  bucket_length ℓ hℓ := by
    change (padded O v ℓ).length = O.Z
    unfold padded
    split_ifs
    · rw [StorageAdapter.length_stored, h.bucket_length ℓ hℓ]
    · exact h.bucket_length ℓ hℓ
  tree_id ℓ x hx := by
    obtain ⟨y, hy, h1, -⟩ := mem_padded hx
    rw [h1]
    exact h.tree_id ℓ y hy
  tree_data ℓ x hx := by
    obtain ⟨y, hy, -, h2 | h2⟩ := mem_padded hx
    · rw [h2]
      exact h.tree_data ℓ y hy
    · rw [h2, length_zeroPad (h.tree_data ℓ y hy)]
  stash_id := h.stash_id
  stash_data := h.stash_data
  cached_lt ℓ hℓ := h.cached_lt ℓ (hc ℓ hℓ)

end LawfulOram

end PathOram
