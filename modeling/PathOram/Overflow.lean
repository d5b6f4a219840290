/-
When the stash overflows.

The stash refuses a new block when it is full, so what an access throws depends on the set of IDs alone that come
together in the stash: those it holds, those on the path, and the block of a put. Nothing is said of the order in which
the path is read.

- `bounded_steady`: the stash never holds more than its capacity.
- `access_outcome`: from a state in which every block is once, an access returns if these blocks fit (`Oram.demand`), and
  throws the overflow if they do not; otherwise the storage has thrown.
- `overflow_iff`: **the exact overflow condition**, after every run that returns. With room for a path and one block more
  nothing overflows; with less it need not either (`no_overflow_above`).
-/
import PathOram.Failures
import PathOram.Correctness

namespace PathOram

open Lib

/-! ## The size of the stash -/

section

variable {β μ : Type} {O : Oram β μ} {capacity : ℕ}

theorem onStash_bounded {α : Type} {m : Run Stash α}
    (h : Triple (fun stash : Stash => stash.size ≤ capacity) m (fun _ stash => stash.size ≤ capacity)
      (fun _ stash => stash.size ≤ capacity)) :
    Triple (fun s : OramState β μ => s.stash.size ≤ capacity) (Oram.onStash m) (fun _ s => s.stash.size ≤ capacity)
      (fun _ s => s.stash.size ≤ capacity) :=
  Triple.conseq (Triple.zoom_frame (OramState.stashLens β μ) h (F := fun _ => True) fun _ _ h => h)
    (fun _ h => ⟨h, trivial⟩) (fun _ _ h => h.1) fun _ _ h => h.1

/-- what passes the check leaves room for its block -/
theorem checkOverflow_bounded (A : InMemoryStashAdapter) (block : ℕ) :
    Triple (fun stash : Stash => stash.size ≤ A.capacity) (A.checkOverflow block)
      (fun _ stash => (insert block stash.keySet).card ≤ A.capacity) (fun _ stash => stash.size ≤ A.capacity) := by
  unfold InMemoryStashAdapter.checkOverflow
  refine Triple.bind (Q := fun a stash => a = stash ∧ stash.size ≤ A.capacity) (Triple.read fun stash h => ⟨rfl, h⟩) fun a => ?_
  refine Triple.ite (fun _ => Triple.throw fun stash h => h.2) fun hroom => Triple.pure ?_
  rintro stash ⟨rfl, hle⟩
  rw [Finset.card_insert_eq_ite, UnorderedMap.card_keySet]
  split_ifs with hmem
  · exact hle
  · rw [UnorderedMap.mem_keySet] at hmem
    have hne : a.size ≠ A.capacity := fun he => hroom ⟨he, hmem⟩
    omega

/-- **The stash never holds more than its capacity.** -/
theorem bounded_steady (O : Oram β μ) : Steady O fun s => s.stash.size ≤ O.stash.capacity where
  storage _ _ h := h
  cache _ _ h := h
  get i := Triple.zoom_keeps (OramState.mapLens β μ) (fun _ _ h => h) (O.map.get i)
  getAll := onStash_bounded fun w stash h => ((LawfulOram.getAll_triple stash).conseq (fun _ h => h)
    (fun _ stash' h' => by rw [h'.2]; exact h) fun _ _ h => h) w stash rfl
  add block data := by
    refine onStash_bounded ((checkOverflow_bounded O.stash block).bind fun _ => Triple.modify fun stash h => ?_)
    rwa [← UnorderedMap.card_keySet, UnorderedMap.keySet_emplace]
  update block data := by
    refine onStash_bounded ((checkOverflow_bounded O.stash block).bind fun _ => Triple.modify fun stash h => ?_)
    rwa [← UnorderedMap.card_keySet, UnorderedMap.keySet_insert]
  stashGet block response := by
    refine onStash_bounded (Triple.bind (Q := fun _ stash => stash.size ≤ O.stash.capacity) (Triple.read fun _ h => h) ?_)
    intro stash
    cases AList.lookup block stash with
    | some data => exact Triple.pure fun _ h => h
    | none => exact Triple.pure fun _ h => h
  remove block := by
    refine onStash_bounded (Triple.modify fun stash h => ?_)
    rw [← UnorderedMap.card_keySet, UnorderedMap.keySet_erase]
    exact Finset.card_erase_le.trans ((UnorderedMap.card_keySet stash).trans_le h)

/-- **Adding the blocks of a path**: they all fit, or the stash throws. -/
theorem exec_addBlocks (blocks : List Block) (w : World) (s : OramState β μ) (hle : s.stash.size ≤ O.stash.capacity) :
    if (s.stash.keySet ∪ (realIds blocks).toFinset).card ≤ O.stash.capacity then
      ∃ stash, (O.addBlocks blocks).exec w s = (.ok (), w, { s with stash := stash }) ∧
        stash.keySet = s.stash.keySet ∪ (realIds blocks).toFinset
    else ∃ s', (O.addBlocks blocks).exec w s = (.error (.overCapacity O.stash.capacity), w, s') := by
  induction blocks generalizing s with
  | nil =>
    have hcard : (s.stash.keySet ∪ (realIds []).toFinset).card ≤ O.stash.capacity := by
      simpa [realIds, UnorderedMap.card_keySet] using hle
    rw [if_pos hcard]
    exact ⟨s.stash, rfl, by simp [realIds]⟩
  | cons b rest ih =>
    have hexec : (O.addBlocks (b :: rest)).exec w s = Prog.exec ((if b.1 ≠ ulongMax then
        Oram.onStash (O.stash.add b.1 b.2) else pure ()) >>= fun _ => O.addBlocks rest) w s := rfl
    by_cases hdummy : b.1 = ulongMax
    · have hids : realIds (b :: rest) = realIds rest := by simp [realIds, hdummy]
      rw [hexec, if_neg (not_not.2 hdummy), Prog.exec_bind_ok (Prog.exec_pure () w s), hids]
      exact ih s hle
    · have hids : (realIds (b :: rest)).toFinset = insert b.1 (realIds rest).toFinset := by simp [realIds, hdummy]
      have hunion : s.stash.keySet ∪ insert b.1 (realIds rest).toFinset =
          insert b.1 s.stash.keySet ∪ (realIds rest).toFinset := by
        rw [Finset.union_insert, Finset.insert_union]
      rw [hexec, if_pos hdummy, hids, hunion]
      have hadd := exec_stashAdd (O := O) b.1 b.2 w s
      by_cases hfull : s.stash.size = O.stash.capacity ∧ b.1 ∉ s.stash
      · have hcard : ¬ (insert b.1 s.stash.keySet ∪ (realIds rest).toFinset).card ≤ O.stash.capacity := by
          have hone : (insert b.1 s.stash.keySet).card = O.stash.capacity + 1 := by
            rw [Finset.card_insert_of_notMem fun h => hfull.2 (UnorderedMap.mem_keySet.1 h), UnorderedMap.card_keySet, hfull.1]
          intro hle'
          have hsub : insert b.1 s.stash.keySet ⊆ insert b.1 s.stash.keySet ∪ (realIds rest).toFinset := Finset.subset_union_left
          exact absurd ((Finset.card_le_card hsub).trans hle') (by omega)
        rw [if_pos hfull] at hadd
        rw [if_neg hcard, Prog.exec_bind_error hadd]
        exact ⟨s, rfl⟩
      · rw [if_neg hfull] at hadd
        rw [Prog.exec_bind_ok hadd]
        have hkeys : UnorderedMap.keySet (s.stash.emplace b.1 b.2) = insert b.1 s.stash.keySet :=
          UnorderedMap.keySet_emplace s.stash b.1 b.2
        have hroom : UnorderedMap.size (s.stash.emplace b.1 b.2) ≤ O.stash.capacity := by
          rw [← UnorderedMap.card_keySet, hkeys, Finset.card_insert_eq_ite, UnorderedMap.card_keySet]
          split_ifs with hmem
          · exact hle
          · have hne : s.stash.size ≠ O.stash.capacity := fun he => hfull ⟨he, fun h => hmem (UnorderedMap.mem_keySet.2 h)⟩
            omega
        have hrest := ih { s with stash := s.stash.emplace b.1 b.2 } hroom
        rw [← hkeys]
        exact hrest

end

/-! ## What an access brings into the stash -/

section

variable {β : Type} {mapCapacity : ℕ} (O : Oram β (PositionArray mapCapacity))
  (L : LawfulBackend O.storage.backend O.storage.capacity O.storage.blockSize)

/-- the real blocks in the buckets on the path of a block's current leaf -/
def Oram.pathBlocks (s : OramState β (PositionArray mapCapacity)) (block : ℕ) : List Block :=
  ((List.range O.height).flatMap fun level =>
    O.bucketAt L s (O.bucketForLevelLeaf level (s.map[block]?.getD 0))).filter fun b => b.1 ≠ ulongMax

/-- one for a write to a block that is neither in the stash nor on its path -/
def Oram.newcomers (s : OramState β (PositionArray mapCapacity)) (op : Op) : ℕ :=
  if op.read = false ∧ op.block ∉ s.stash ∧ op.block ∉ (O.pathBlocks L s op.block).map Prod.fst then 1 else 0

/-- the blocks that are in the stash at once in the middle of an access -/
def Oram.demand (s : OramState β (PositionArray mapCapacity)) (op : Op) : ℕ :=
  s.stash.size + (O.pathBlocks L s op.block).length + O.newcomers L s op

end

namespace LawfulOram

variable {β : Type} {mapCapacity : ℕ} {O : Oram β (PositionArray mapCapacity)} {L : LawfulOram O} {v : View} {c : Contents}
  {s : OramState β (PositionArray mapCapacity)} {w : World}

/-- the path of a block, seen through the view -/
theorem pathBlocks_eq (hL : L.OnArray) (hv : Shape O v) (hs : L.Sees v s) {block : ℕ} (hb : block < 2 ^ O.height * O.Z) :
    O.pathBlocks L.storage s block =
      ((path O.height (v.pos block)).flatMap v.tree).filter fun b => b.1 ≠ ulongMax := by
  have hleaf : s.map[block]?.getD 0 = v.pos block := by rw [hL.position hs hb, Option.getD_some]
  have hpos := hv.pos_lt block hb
  rw [Oram.pathBlocks, hleaf, path, List.flatMap_map]
  congr 1
  rw [List.flatMap_def, List.flatMap_def]
  refine congrArg List.flatten (List.map_congr_left fun level hlevel => ?_)
  have hnode := L.bucketForLevelLeaf_eq (List.mem_range.1 hlevel) hpos
  have hlt := L.mem_path_capacity hpos (mem_path.2 ⟨level, List.mem_range.1 hlevel, rfl⟩)
  rw [hnode, sees_bucketAt hs hlt]

/-- a path holds at most Z blocks a level -/
theorem length_pathBlocks_le (hL : L.OnArray) (hv : Shape O v) (hs : L.Sees v s) {block : ℕ}
    (hb : block < 2 ^ O.height * O.Z) : (O.pathBlocks L.storage s block).length ≤ O.height * O.Z := by
  rw [pathBlocks_eq hL hv hs hb]
  refine (List.length_filter_le _ _).trans ?_
  rw [List.length_flatMap]
  have hlen : ∀ n ∈ (path O.height (v.pos block)).map fun ℓ => (v.tree ℓ).length, n = O.Z := by
    intro n hn
    obtain ⟨ℓ, hℓ, rfl⟩ := List.mem_map.1 hn
    exact hv.bucket_length ℓ (L.mem_path_capacity (hv.pos_lt block hb) hℓ)
  rw [List.sum_eq_card_nsmul _ _ hlen, List.length_map, path_length, smul_eq_mul]

theorem pathBlocks_ids (hL : L.OnArray) (hv : Shape O v) (hs : L.Sees v s) {block : ℕ} (hb : block < 2 ^ O.height * O.Z) :
    (O.pathBlocks L.storage s block).map Prod.fst =
      (path O.height (v.pos block)).flatMap fun ℓ => realIds (v.tree ℓ) := by
  rw [pathBlocks_eq hL hv hs hb, List.filter_flatMap, List.map_flatMap]
  rfl

theorem pathBlocks_nodup (hL : L.OnArray) (hv : Shape O v) (hu : Unique v) (hs : L.Sees v s) {block : ℕ}
    (hb : block < 2 ^ O.height * O.Z) : ((O.pathBlocks L.storage s block).map Prod.fst).Nodup := by
  rw [pathBlocks_ids hL hv hs hb]
  exact realIds_nodup hu (path_nodup (hv.pos_lt block hb))

/-- the IDs that the stash holds once the path is read: as many as it held and the path holds -/
theorem card_union_path (hL : L.OnArray) (hv : Shape O v) (hu : Unique v) (hs : L.Sees v s) {block : ℕ}
    (hb : block < 2 ^ O.height * O.Z) {blocks : List Block}
    (hblocks : ∀ x, x ∈ blocks ↔ ∃ ℓ ∈ path O.height (v.pos block), x ∈ v.tree ℓ) :
    (s.stash.keySet ∪ (realIds blocks).toFinset).card = s.stash.size + (O.pathBlocks L.storage s block).length ∧
      (∀ id, id ∈ s.stash.keySet ∪ (realIds blocks).toFinset ↔
        id ∈ s.stash ∨ id ∈ (O.pathBlocks L.storage s block).map Prod.fst) := by
  have hids := pathBlocks_ids hL hv hs hb
  have hmem : ∀ id, id ∈ realIds blocks ↔ id ∈ (O.pathBlocks L.storage s block).map Prod.fst := by
    intro id
    rw [hids, List.mem_flatMap]
    simp only [realIds, List.mem_map, List.mem_filter, hblocks]
    constructor
    · rintro ⟨x, ⟨⟨ℓ, hℓ, hx⟩, hne⟩, rfl⟩
      exact ⟨ℓ, hℓ, x, ⟨hx, hne⟩, rfl⟩
    · rintro ⟨ℓ, hℓ, x, ⟨hx, hne⟩, rfl⟩
      exact ⟨x, ⟨⟨ℓ, hℓ, hx⟩, hne⟩, rfl⟩
  have hset : (realIds blocks).toFinset = ((O.pathBlocks L.storage s block).map Prod.fst).toFinset := by
    ext id
    rw [List.mem_toFinset, List.mem_toFinset, hmem]
  have hdisjoint : Disjoint s.stash.keySet ((O.pathBlocks L.storage s block).map Prod.fst).toFinset := by
    apply Finset.disjoint_left.2
    intro id hstash hpath
    rw [List.mem_toFinset, hids, List.mem_flatMap] at hpath
    obtain ⟨ℓ, -, hid⟩ := hpath
    obtain ⟨x, hx, rfl⟩ := List.mem_map.1 hid
    obtain ⟨d, hd⟩ := UnorderedMap.mem_iff_lookup.1 (UnorderedMap.mem_keySet.1 hstash)
    exact hu.stash x.1 d ((congrFun hs.stash x.1).trans hd) ℓ x (List.mem_filter.1 hx).1 rfl
  refine ⟨?_, fun id => ?_⟩
  · rw [hset, Finset.card_union_of_disjoint hdisjoint, UnorderedMap.card_keySet,
      List.toFinset_card_of_nodup (pathBlocks_nodup hL hv hu hs hb), List.length_map]
  · rw [Finset.mem_union, UnorderedMap.mem_keySet, List.mem_toFinset, hmem]

/-- an update and the eviction after it: only the update can throw -/
theorem finishAccess_outcome (hL : L.OnArray) (hv : Shape O v) (hs : L.Sees v s) {op : Op} (hop : op.Valid O) {leaf : ℕ}
    (hf : leaf < 2 ^ (O.height - 1)) :
    if op.read = false ∧ s.stash.size = O.stash.capacity ∧ op.block ∉ s.stash then
      ∃ w' s', (O.finishAccess op.read op.block op.data [] leaf).exec w s = (.error (.overCapacity O.stash.capacity), w', s')
    else ∃ r w' s', (O.finishAccess op.read op.block op.data [] leaf).exec w s = (.ok r, w', s') := by
  -- what follows the update does not throw
  have hrest : ∀ {v : View} {s : OramState β (PositionArray mapCapacity)}, Shape O v → L.Sees v s →
      ∃ r w' s', Prog.exec (do
        let response ← Oram.onStash (InMemoryStashAdapter.get op.block [])
        O.writePath leaf
        return response) w s = (.ok r, w', s') := by
    intro v s hv hs
    have hrefines : Refines L.Sees v (do
        let response ← Oram.onStash (InMemoryStashAdapter.get op.block [])
        O.writePath leaf
        return response) (fun _ _ => True) (L.Fails fun _ _ => False) := by
      refine (stashGet_refines op.block []).bind ?_
      rintro r v₁ ⟨-, rfl⟩
      exact (writePath_refines hf hv.stash_id).bind fun _ v₂ _ => Refines.pure trivial
    have hout := hrefines w s hs
    rcases hexec : Prog.exec (do
        let response ← Oram.onStash (InMemoryStashAdapter.get op.block [])
        O.writePath leaf
        return response) w s with ⟨e | r, w', s'⟩
    · rw [hexec] at hout
      rcases hout with he | ⟨_, hfalse, -⟩
      · exact absurd he (hL.err e)
      · exact hfalse.elim
    · exact ⟨r, w', s', rfl⟩
  unfold Oram.finishAccess
  cases hread : op.read with
  | true =>
    rw [if_neg (by simp)]
    exact hrest hv hs
  | false =>
    have hupdate := exec_stashUpdate (O := O) op.block op.data w s
    by_cases hfull : s.stash.size = O.stash.capacity ∧ op.block ∉ s.stash
    · rw [if_pos hfull] at hupdate
      rw [if_pos ⟨rfl, hfull⟩]
      exact ⟨w, s, Prog.exec_bind_error hupdate⟩
    · rw [if_neg hfull] at hupdate
      rw [if_neg fun h => hfull h.2]
      obtain ⟨v', rfl, hs'⟩ := Triple.ok (stashUpdate_refines (L := L) op.block op.data) hs hupdate
      have hshape : Shape O (updated op _) := shape_updated hv hop.block_lt hop.data_le
      rw [updated, if_neg (by simp [hread])] at hshape
      obtain ⟨r, w', s', hexec⟩ := hrest hshape hs'
      exact ⟨r, w', s', (Prog.exec_bind_ok hupdate).trans hexec⟩

/-- **The outcome of an access**: it returns if its blocks fit, and throws the overflow if they do not, unless the storage
throws. -/
theorem access_outcome (hL : L.OnArray) (hv : Inv O c v) (hu : Unique v) (hs : L.Sees v s)
    (hle : s.stash.size ≤ O.stash.capacity) {op : Op} (hop : op.Valid O) :
    (∃ e w' s', (O.access op.read op.block op.data []).exec w s = (.error e, w', s') ∧ L.storage.fault e) ∨
    (O.demand L.storage s op ≤ O.stash.capacity ∧
      ∃ r w' s', (O.access op.read op.block op.data []).exec w s = (.ok r, w', s')) ∨
    (O.stash.capacity < O.demand L.storage s op ∧
      ∃ w' s', (O.access op.read op.block op.data []).exec w s = (.error (.overCapacity O.stash.capacity), w', s')) := by
  have hcap : op.block < mapCapacity := (Vector.getElem?_eq_some_iff.1 (hL.position hs hop.block_lt)).1
  have hremap := exec_remap hL.map op.block w s
  rw [if_neg (not_le.2 hcap)] at hremap
  obtain ⟨v₁, ⟨hprevious, leaf, hleaf, rfl⟩, hs₁⟩ := Triple.ok (remap_refines (F := fun _ _ => False) L hop.block_lt) hs hremap
  have hpos := hv.pos_lt _ hop.block_lt
  rw [hprevious] at hremap
  rw [access_eq, Prog.exec_bind_ok hremap]
  set w₁ : World := { w with rand := fun n => w.rand (n + 1) }
  set s₁ : OramState β (PositionArray mapCapacity) := { s with map := s.map.setIfInBounds op.block (O.drawnLeaf w) }
  have hread : ∀ w s, (O.readPath (v.pos op.block) [] true).exec w s = Prog.exec
      (O.getCache (O.pathLocations (v.pos op.block) []) false >>= fun blocks =>
        O.addBlocks blocks >>= fun _ => pure (O.pathLocations (v.pos op.block) [])) w s := fun _ _ => rfl
  have hperm := L.pathLocations_perm hpos
  have hshape : Shape O (remapped v op.block leaf) := shape_remapped hv.toShape hleaf
  have hget := getCache_refines (L := L) (v := remapped v op.block leaf) false
    (fun ℓ hℓ => L.mem_path_capacity hpos (hperm.mem_iff.1 hℓ)) (L.pathLocations_length hpos)
    fun ℓ hℓ => hshape.bucket_length ℓ (L.mem_path_capacity hpos (hperm.mem_iff.1 hℓ))
  have hkeeps := getCache_keeps (O := O) (P := fun t => t.stash = s.stash) (fun _ _ h => h) (fun _ _ h => h)
    (O.pathLocations (v.pos op.block) []) false
  rcases hexec : (O.getCache (O.pathLocations (v.pos op.block) []) false).exec w₁ s₁ with ⟨e | blocks, w₂, s₂⟩
  · -- the download failed
    have hfault := (Triple.error hget hs₁ hexec).resolve_left (hL.err e)
    obtain ⟨_, ⟨hfault, -⟩, -⟩ := hfault
    refine Or.inl ⟨e, w₂, s₂, Prog.exec_bind_error ?_, hfault⟩
    rw [hread, Prog.exec_bind_error hexec]
  refine Or.inr ?_
  obtain ⟨v₂, ⟨⟨missing, hmissing, rfl⟩, hblocks⟩, hs₂⟩ := Triple.ok hget hs₁ hexec
  have hstash : s₂.stash = s.stash := hkeeps.ok (show s₁.stash = s.stash from rfl) hexec
  simp only [true_and, hperm.mem_iff] at hblocks
  obtain ⟨hcard, hmem⟩ := card_union_path hL hv.toShape hu hs hop.block_lt hblocks
  have hadd := exec_addBlocks (O := O) blocks w₂ s₂ (hstash ▸ hle)
  rw [hstash, hcard] at hadd
  split_ifs at hadd with hfits
  · -- the path is in the stash
    obtain ⟨stash, hadd, hkeys⟩ := hadd
    obtain ⟨v₃, rfl, hs₃⟩ := Triple.ok (addBlocks_refines (L := L) blocks) hs₂ hadd
    simp only [hperm.mem_iff] at hs₃
    have hshape₃ := shape_pathRead L hshape hpos ⟨blocks, missing, hblocks, hmissing.trans (hperm.filter _), rfl⟩
    have hsize : stash.size = s.stash.size + (O.pathBlocks L.storage s op.block).length := by
      rw [← UnorderedMap.card_keySet, hkeys, hcard]
    have hnew : op.block ∉ stash ↔ op.block ∉ s.stash ∧ op.block ∉ (O.pathBlocks L.storage s op.block).map Prod.fst := by
      rw [← UnorderedMap.mem_keySet, hkeys, hmem, not_or]
    have hfinish := finishAccess_outcome (w := w₂) hL hshape₃ hs₃ hop hpos
    have hpath : (O.readPath (v.pos op.block) [] true).exec w₁ s₁ =
        (.ok (O.pathLocations (v.pos op.block) []), w₂, { s₂ with stash := stash }) := by
      rw [hread, Prog.exec_bind_ok hexec, Prog.exec_bind_ok hadd, Prog.exec_pure]
    by_cases hfull : op.read = false ∧ stash.size = O.stash.capacity ∧ op.block ∉ stash
    · rw [if_pos hfull] at hfinish
      obtain ⟨w', s', hfinish⟩ := hfinish
      refine Or.inr ⟨?_, w', s', (Prog.exec_bind_ok hpath).trans hfinish⟩
      rw [Oram.demand, Oram.newcomers, if_pos ⟨hfull.1, hnew.1 hfull.2.2⟩]
      omega
    · rw [if_neg hfull] at hfinish
      obtain ⟨r, w', s', hfinish⟩ := hfinish
      refine Or.inl ⟨?_, r, w', s', (Prog.exec_bind_ok hpath).trans hfinish⟩
      unfold Oram.demand Oram.newcomers
      split_ifs with hone
      · have hne : stash.size ≠ O.stash.capacity := fun he => hfull ⟨hone.1, he, hnew.2 hone.2⟩
        omega
      · omega
  · -- the stash was full before the path was read
    obtain ⟨s', hadd⟩ := hadd
    refine Or.inr ⟨?_, w₂, s', Prog.exec_bind_error ?_⟩
    · unfold Oram.demand
      omega
    · rw [hread, Prog.exec_bind_ok hexec, Prog.exec_bind_error hadd]

/-- a call of one access returns if its access does, and throws what its access throws -/
theorem exec_outcome (hL : L.OnArray) (hv : Inv O c v) (hu : Unique v) (hs : L.Sees v s)
    (hle : s.stash.size ≤ O.stash.capacity) {call : Call} {op : Op} (hop : op.Valid O) (hops : call.ops = [op])
    (hbatch : call.batch = []) (hstorage : ∀ e, ((O.exec call).exec w s).1 = .error e → ¬ L.storage.fault e) :
    (O.demand L.storage s op ≤ O.stash.capacity ∧ ∃ reply, ((O.exec call).exec w s).1 = .ok reply) ∨
      (O.stash.capacity < O.demand L.storage s op ∧
        ((O.exec call).exec w s).1 = .error (.overCapacity O.stash.capacity)) := by
  rcases access_outcome hL hv hu hs hle hop with ⟨e, w', s', he, hfault⟩ | ⟨hfits, r, w', s', ha⟩ | ⟨hover, w', s', he⟩
  · exact absurd hfault (hstorage e (congrArg Prod.fst (exec_of_access_error hops hbatch he)))
  · refine Or.inl ⟨hfits, ?_⟩
    obtain ⟨v', ha', hs'⟩ := Triple.ok (access_refines hv.toShape hop.block_lt []) hs ha
    have hv' := shape_accessed L hv.toShape hop.block_lt hop.data_le ha'
    have haccesses : (O.accesses call).exec w s = (.ok [r], w', s') := by
      rw [accesses_single O hops hbatch, Prog.exec_bind_ok ha, Prog.exec_pure]
    have hsync := syncCache_refines (hv'.flushable L) w' s' hs'
    rw [exec_eq, Prog.exec_bind_ok haccesses] at hstorage ⊢
    rcases hexec : O.syncCache.exec w' s' with ⟨e | _, w'', s''⟩
    · rw [Prog.exec_bind_error hexec] at hstorage
      rw [hexec] at hsync
      obtain ⟨_, ⟨hfault, -⟩, -⟩ := hsync.resolve_left (hL.err e)
      exact absurd hfault (hstorage e rfl)
    · rw [Prog.exec_bind_ok hexec]
      exact ⟨_, rfl⟩
  · exact Or.inr ⟨hover, congrArg Prod.fst (exec_of_access_error hops hbatch he)⟩

theorem newcomers_le (op : Op) : O.newcomers L.storage s op ≤ 1 := by
  unfold Oram.newcomers
  split_ifs <;> omega

/-- the stash holds no more blocks than the ORAM has -/
theorem size_le_blocks (hs : L.HoldsOnce c s) : s.stash.size ≤ 2 ^ O.height * O.Z := by
  obtain ⟨v, hv, -, -, hs⟩ := hs
  rw [← UnorderedMap.card_keySet, ← Finset.card_range (2 ^ O.height * O.Z)]
  apply Finset.card_le_card
  intro id hid
  obtain ⟨d, hd⟩ := UnorderedMap.mem_iff_lookup.1 (UnorderedMap.mem_keySet.1 hid)
  exact Finset.mem_range.2 (hv.stash_id id d ((congrFun hs.stash id).trans hd))

/-- a stash with room for all blocks and a path does not overflow -/
theorem exec_returns (hL : L.OnArray) (hs : L.HoldsOnce c s) (hfault : ∀ e, ¬ L.storage.fault e)
    (hroom : 2 ^ O.height * O.Z + O.height * O.Z + 1 ≤ O.stash.capacity) {call : Call} {op : Op} (hop : op.Valid O)
    (hops : call.ops = [op]) (hbatch : call.batch = []) : ∃ reply, ((O.exec call).exec w s).1 = .ok reply := by
  have hsize := size_le_blocks hs
  obtain ⟨v, hv, hu, -, hs⟩ := hs
  have hpath := length_pathBlocks_le hL hv.toShape hs hop.block_lt
  have hnew : O.newcomers L.storage s op ≤ 1 := newcomers_le op
  rcases exec_outcome hL hv hu hs (by omega) hop hops hbatch (fun e _ => hfault e) with ⟨-, hreply⟩ | ⟨hover, -⟩
  · exact hreply
  · unfold Oram.demand at hover
    omega

/-- **A run with room for all blocks** returns, if the storage does not throw. -/
theorem run_returns (hL : L.OnArray) (hsmall : O.Small) (hs : L.HoldsOnce c s) (hfault : ∀ e, ¬ L.storage.fault e)
    (hroom : 2 ^ O.height * O.Z + O.height * O.Z + 1 ≤ O.stash.capacity) {calls : List Call}
    (hcalls : ∀ call ∈ calls, call.Valid O) (hone : ∀ call ∈ calls, ∃ op, call.ops = [op] ∧ call.batch = []) :
    ∃ replies, ((O.run calls).exec w s).1 = .ok replies := by
  induction calls generalizing c s w with
  | nil => exact ⟨[], rfl⟩
  | cons call calls ih =>
    have hcall := hcalls call List.mem_cons_self
    obtain ⟨op, hops, hbatch⟩ := hone call List.mem_cons_self
    obtain ⟨reply, hreply⟩ := exec_returns (w := w) hL hs hfault hroom (hcall.1 op (hops ▸ List.mem_cons_self)) hops hbatch
    have hexec := Prog.exec_eq hreply
    obtain ⟨-, hs'⟩ := (exec_triple hsmall hcall).ok hs hexec
    obtain ⟨replies, hrest⟩ := ih (w := ((O.exec call).exec w s).2.1) hs'
      (fun call hm => hcalls call (List.mem_cons_of_mem _ hm)) fun call hm => hone call (List.mem_cons_of_mem _ hm)
    refine ⟨reply :: replies, ?_⟩
    rw [Oram.run, List.mapM_cons, Prog.exec_bind_ok hexec]
    exact congrArg Prod.fst (Prog.exec_bind_ok (Prog.exec_eq hrest))

/-- nothing is in the stash of an ORAM that holds nothing -/
theorem size_of_holdsNothing (hs : L.HoldsOnce (fun _ => none) s) : s.stash.size = 0 := by
  obtain ⟨v, hv, -, -, hs⟩ := hs
  rw [← UnorderedMap.card_keySet, Finset.card_eq_zero]
  apply Finset.eq_empty_of_forall_notMem
  intro id hid
  obtain ⟨d, hd⟩ := UnorderedMap.mem_iff_lookup.1 (UnorderedMap.mem_keySet.1 hid)
  obtain ⟨p, hp, -⟩ := hv.stash_good id d ((congrFun hs.stash id).trans hd)
  cases hp

end LawfulOram

/-! ## The result -/

/-- the calls of a run keep the stash within its capacity -/
theorem run_bounded {β μ : Type} (O : Oram β μ) (hpos : 0 < shlOne (O.height - 1)) (calls : List Call) :
    Triple (fun s => s.stash.size ≤ O.stash.capacity) (O.run calls) (fun _ s => s.stash.size ≤ O.stash.capacity)
      (fun _ s => s.stash.size ≤ O.stash.capacity) := by
  have hset : ∀ i leaf, leaf < shlOne (O.height - 1) → Triple (fun s : OramState β μ => s.stash.size ≤ O.stash.capacity)
      (Oram.onMap (O.map.set i leaf)) (fun _ s => s.stash.size ≤ O.stash.capacity)
      (fun _ s => s.stash.size ≤ O.stash.capacity) := fun i leaf _ =>
    Triple.zoom_keeps (OramState.mapLens β μ) (fun _ _ h => h) (O.map.set i leaf)
  have hexec := fun call => (bounded_steady O).exec hset hpos call
  exact (Triple.mapM_inv (fun _ _ (s : OramState β μ) => s.stash.size ≤ O.stash.capacity)
    (fun call _ _ _ => hexec call) []).post fun _ _ h => h

/-- **The exact overflow condition.** After the construction and every run of valid calls that returns, a get or a put in
which the storage does not throw throws the overflow of the stash if and only if the blocks in the stash, the blocks on
the path and the block of a put that is in neither are more than the capacity. A path has at most Z blocks a level, so
a stash that holds at most capacity - height * Z - 1 blocks does not overflow. -/
theorem overflow_iff {β : Type} {S : StorageAdapter β} {mapCapacity stashCapacity height batchSize : ℕ}
    (h : Sizes S.toAbsStorageAdapter S.crypto mapCapacity height) (hsmall : 2 ^ height * S.Z ≤ 2 ^ 31)
    (L : LawfulBackend S.backend S.capacity S.blockSize) {s₀ s : OramState β (PositionArray mapCapacity)} {w₀ w : World}
    (hfresh : Fresh s₀) {calls : List Call} {replies : List Reply}
    (hcalls : ∀ call ∈ calls, call.Valid (arrayOram S mapCapacity stashCapacity height batchSize))
    (hrun : ((arrayOram S mapCapacity stashCapacity height batchSize).session calls).exec w₀ s₀ = (.ok replies, w, s))
    {call : Call} (hcall : call.Valid (arrayOram S mapCapacity stashCapacity height batchSize)) {op : Op}
    (hops : call.ops = [op]) (hbatch : call.batch = [])
    (hstorage : ∀ e, (((arrayOram S mapCapacity stashCapacity height batchSize).exec call).exec w s).1 = .error e →
      ¬ L.fault e) :
    ((((arrayOram S mapCapacity stashCapacity height batchSize).exec call).exec w s).1 = .error (.overCapacity stashCapacity) ↔
        stashCapacity < s.stash.size +
          ((arrayOram S mapCapacity stashCapacity height batchSize).pathBlocks L s op.block).length +
          (arrayOram S mapCapacity stashCapacity height batchSize).newcomers L s op) ∧
      ((arrayOram S mapCapacity stashCapacity height batchSize).pathBlocks L s op.block).length ≤ height * S.Z ∧
      (arrayOram S mapCapacity stashCapacity height batchSize).newcomers L s op ≤ 1 ∧
      (s.stash.size + height * S.Z + 1 ≤ stashCapacity →
        ∃ reply, (((arrayOram S mapCapacity stashCapacity height batchSize).exec call).exec w s).1 = .ok reply) := by
  set O := arrayOram S mapCapacity stashCapacity height batchSize
  have hsmallO : O.Small := hsmall
  have hL := arrayOram_onArray h L stashCapacity batchSize
  have hop : op.Valid O := hcall.1 op (hops ▸ List.mem_cons_self)
  -- the state reached
  obtain ⟨_, w₁, s₁, hconstruct, hrun⟩ := Prog.exec_bind_inv hrun
  have hempty := (LawfulOram.construct_triple (arrayOram_lawful h L stashCapacity batchSize)).ok
    (arrayOram_fresh h L stashCapacity batchSize hfresh) hconstruct
  obtain ⟨-, v, hv, hu, -, hs⟩ := (LawfulOram.run_triple hsmallO hcalls).ok hempty hrun
  have hpos : 0 < shlOne (O.height - 1) := by
    rw [(arrayOram_lawful h L stashCapacity batchSize).shlOne_eq]
    exact Nat.two_pow_pos _
  have hle : s.stash.size ≤ O.stash.capacity := (run_bounded O hpos calls).ok
    (by rw [LawfulOram.size_of_holdsNothing hempty]; exact Nat.zero_le _) hrun
  have hpath : (O.pathBlocks L s op.block).length ≤ height * S.Z :=
    LawfulOram.length_pathBlocks_le hL hv.toShape hs hop.block_lt
  have hnew : O.newcomers L s op ≤ 1 :=
    LawfulOram.newcomers_le (L := arrayOram_lawful h L stashCapacity batchSize) op
  have hcases : (O.demand L s op ≤ stashCapacity ∧ ∃ reply, ((O.exec call).exec w s).1 = .ok reply) ∨
      (stashCapacity < O.demand L s op ∧ ((O.exec call).exec w s).1 = .error (.overCapacity stashCapacity)) :=
    LawfulOram.exec_outcome hL hv hu hs hle hop hops hbatch hstorage
  refine ⟨?_, hpath, hnew, fun hroom => ?_⟩
  · change _ ↔ stashCapacity < O.demand L s op
    rcases hcases with ⟨hfits, reply, hreply⟩ | ⟨hover, he⟩
    · have hne : (Except.ok reply : Except Exception Reply) ≠ .error (.overCapacity stashCapacity) := by simp
      rw [hreply]
      exact ⟨fun hcontra => absurd hcontra hne, fun hover => absurd hfits (not_le.2 hover)⟩
    · exact ⟨fun _ => hover, fun _ => he⟩
  · rcases hcases with ⟨-, hreply⟩ | ⟨hover, -⟩
    · exact hreply
    · unfold Oram.demand at hover
      omega

/-- On the tiny ORAM with a stash of one block: block 0 lies in the only bucket and the stash is empty, so that the put of
another block has one block too many, and throws. -/
theorem overflow_iff_tiny : ∃ s w, s.stash.size = 0 ∧
    (((inMemoryOram tinyStorage plainCrypto 2 1 1 4).exec (.put 1 [8])).exec w s).1 = .error (.overCapacity 1) ∧
    1 < s.stash.size + ((inMemoryOram tinyStorage plainCrypto 2 1 1 4).pathBlocks (inMemoryBackend_lawful 2 64) s 1).length +
      (inMemoryOram tinyStorage plainCrypto 2 1 1 4).newcomers (inMemoryBackend_lawful 2 64) s ⟨false, 1, [8]⟩ := by
  set run := ((inMemoryOram tinyStorage plainCrypto 2 1 1 4).session [.put 0 [7]]).exec zeroWorld (zeroState tinyStorage 2)
    with hrun
  have hreturned : run.1 = .ok [.done] := by
    rw [hrun]
    decide +kernel
  have hempty : run.2.2.stash.size = 0 := by
    rw [hrun]
    decide +kernel
  have hthrown : (((inMemoryOram tinyStorage plainCrypto 2 1 1 4).exec (.put 1 [8])).exec run.2.1 run.2.2).1 =
      .error (.overCapacity 1) := by
    rw [hrun]
    decide +kernel
  clear_value run
  have hvalid : (Call.put 1 [8]).Valid (inMemoryOram tinyStorage plainCrypto 2 1 1 4) := by decide
  obtain ⟨hiff, -⟩ := overflow_iff tiny_sizes (by decide) (inMemoryBackend_lawful 2 64) (zeroState_fresh tinyStorage 2)
    (by decide) (hrun.symm.trans (Prod.ext hreturned rfl)) hvalid rfl rfl fun _ _ hfault => hfault
  exact ⟨run.2.2, run.2.1, hempty, hthrown, hiff.1 hthrown⟩

/-- **A stash can carry more without an overflow.** Of a tree with one bucket of one block and a stash of two, one block is in
the stash once both were put. No get or put can overflow it, although it holds more than capacity - height * Z - 1 blocks. -/
theorem no_overflow_above : ∃ w s,
    ((inMemoryOram tinyStorage plainCrypto 2 2 1 4).session [.put 0 [7], .put 1 [8]]).exec zeroWorld
      (zeroState tinyStorage 2) = (.ok [.done, .done], w, s) ∧
    (∀ call, call.Valid (inMemoryOram tinyStorage plainCrypto 2 2 1 4) → ∀ op, call.ops = [op] → call.batch = [] →
      ∀ w', (((inMemoryOram tinyStorage plainCrypto 2 2 1 4).exec call).exec w' s).1 ≠ .error (.overCapacity 2)) ∧
    ¬ s.stash.size ≤ 2 - 1 * tinyStorage.Z - 1 := by
  have hcalls : ∀ call ∈ [Call.put 0 [7], Call.put 1 [8]], call.Valid (inMemoryOram tinyStorage plainCrypto 2 2 1 4) := by
    decide
  set run := ((inMemoryOram tinyStorage plainCrypto 2 2 1 4).session [.put 0 [7], .put 1 [8]]).exec zeroWorld
    (zeroState tinyStorage 2) with hrun
  have hreturned : run.1 = .ok [.done, .done] := by
    rw [hrun]
    decide +kernel
  have hsize : run.2.2.stash.size = 1 := by
    rw [hrun]
    decide +kernel
  have hfound : ∀ id < 2, id ∈ run.2.2.stash ∨ id ∈ ((inMemoryOram tinyStorage plainCrypto 2 2 1 4).pathBlocks
      (inMemoryBackend_lawful 2 64) run.2.2 id).map Prod.fst := by
    rw [hrun]
    decide +kernel
  clear_value run
  have hexec : run = (.ok [.done, .done], run.2.1, run.2.2) := Prod.ext hreturned rfl
  have hL : (inMemoryOram_lawful tiny_sizes 2 4).OnArray :=
    arrayOram_onArray (S := { tinyStorage with crypto := plainCrypto, backend := inMemoryBackend 2 64 }) tiny_sizes
      (inMemoryBackend_lawful 2 64) 2 4
  refine ⟨run.2.1, run.2.2, hexec, fun call hcall op hops hbatch w' => ?_, by rw [hsize]; decide⟩
  have hop : op.Valid (inMemoryOram tinyStorage plainCrypto 2 2 1 4) := hcall.1 op (hops ▸ List.mem_cons_self)
  obtain ⟨-, v, hv, hu, -, hs⟩ := constructed_run tiny_sizes (by decide) (zeroState_fresh tinyStorage 2) hcalls
    (hrun.symm.trans hexec)
  have hpath : ((inMemoryOram tinyStorage plainCrypto 2 2 1 4).pathBlocks (inMemoryBackend_lawful 2 64) run.2.2
      op.block).length ≤ 1 := LawfulOram.length_pathBlocks_le hL hv.toShape hs hop.block_lt
  have hnew : (inMemoryOram tinyStorage plainCrypto 2 2 1 4).newcomers (inMemoryBackend_lawful 2 64) run.2.2 op = 0 := by
    unfold Oram.newcomers
    rw [if_neg]
    intro ⟨_, hstash, htree⟩
    exact (hfound op.block hop.block_lt).elim hstash htree
  have hdemand : (inMemoryOram tinyStorage plainCrypto 2 2 1 4).demand (inMemoryBackend_lawful 2 64) run.2.2 op ≤ 2 := by
    unfold Oram.demand
    rw [hsize, hnew]
    omega
  rcases LawfulOram.exec_outcome (w := w') hL hv hu hs (by rw [hsize]; decide) hop hops hbatch (fun _ _ h => h) with
    ⟨-, reply, hreply⟩ | ⟨hover, -⟩
  · rw [hreply]
    exact fun hcontra => nomatch hcontra
  · exact absurd hdemand (not_le.2 hover)

end PathOram
