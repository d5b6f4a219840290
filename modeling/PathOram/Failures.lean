/-
Calls that throw half-way, in runs.

An access remaps its block to the leaf it draws (`drawnLeaf`) before it reads the old path. What that does to the block,
if the access throws, is said of the state before it and of the world:

- `Settled`: every copy of the block in the tree is on the path of the drawn leaf. The invariant survives the failure
  (`stores_access`), and with it every later put and get.
- `Spared`: the tree has no copy of the block, or one on the path of the drawn leaf, or the block was in the stash or is
  read into it before the failure. Later gets find it.

`failed_access`: **in every run whose failed accesses are settled, a get or put that throws loses nothing if its block is
spared, and loses the block if it is not.** The storage is any provider that keeps its contract, so its methods may throw
at any time; the map and the stash are in memory.
-/
import PathOram.Interruption
import PathOram.Frame

namespace PathOram

open Lib

/-! ## Room in the stash -/

/-- the stash takes the blocks of a list, "empty" ones aside, without hitting its capacity -/
def InMemoryStashAdapter.Room (A : InMemoryStashAdapter) : Stash → List Block → Prop
  | _, [] => True
  | stash, b :: rest =>
    if b.1 = ulongMax then A.Room stash rest
    else ¬ (stash.size = A.capacity ∧ b.1 ∉ stash) ∧ A.Room (stash.emplace b.1 b.2) rest

/-- the block is in the stash, or it comes before the stash is full -/
def InMemoryStashAdapter.Takes (A : InMemoryStashAdapter) (stash : Stash) (blocks : List Block) (block : ℕ) : Prop :=
  block ∈ stash ∨ ∃ before x after, blocks = before ++ x :: after ∧ x.1 = block ∧ A.Room stash (before ++ [x])

section

variable {β μ : Type} {O : Oram β μ}

/-- a method of the stash that checks for room before it changes anything -/
theorem exec_checked (block : ℕ) (f : Stash → Stash) (w : World) (s : OramState β μ) :
    (Oram.onStash (do O.stash.checkOverflow block; Prog.modify f)).exec w s =
      if s.stash.size = O.stash.capacity ∧ block ∉ s.stash then (.error (.overCapacity O.stash.capacity), w, s)
      else (.ok (), w, { s with stash := f s.stash }) := by
  have hcheck : (O.stash.checkOverflow block).exec w s.stash =
      if s.stash.size = O.stash.capacity ∧ block ∉ s.stash then (.error (.overCapacity O.stash.capacity), w, s.stash)
      else (.ok (), w, s.stash) := by
    rw [InMemoryStashAdapter.checkOverflow, Prog.exec_bind_ok (Prog.exec_read w s.stash)]
    split_ifs <;> rfl
  have hchange : Prog.exec (do O.stash.checkOverflow block; Prog.modify f) w s.stash =
      if s.stash.size = O.stash.capacity ∧ block ∉ s.stash then (.error (.overCapacity O.stash.capacity), w, s.stash)
      else (.ok (), w, f s.stash) := by
    split_ifs at hcheck ⊢
    · exact Prog.exec_bind_error hcheck
    · rw [Prog.exec_bind_ok hcheck, Prog.exec_modify]
  rw [Oram.onStash, Prog.exec_zoom]
  change ((Prog.exec _ w s.stash).1, (Prog.exec _ w s.stash).2.1, { s with stash := (Prog.exec _ w s.stash).2.2 }) = _
  rw [hchange]
  split_ifs <;> rfl

theorem exec_stashAdd (block : ℕ) (data : Bytes) (w : World) (s : OramState β μ) :
    (Oram.onStash (O.stash.add block data)).exec w s =
      if s.stash.size = O.stash.capacity ∧ block ∉ s.stash then (.error (.overCapacity O.stash.capacity), w, s)
      else (.ok (), w, { s with stash := s.stash.emplace block data }) :=
  exec_checked block (fun stash => stash.emplace block data) w s

theorem exec_stashUpdate (block : ℕ) (data : Bytes) (w : World) (s : OramState β μ) :
    (Oram.onStash (O.stash.update block data)).exec w s =
      if s.stash.size = O.stash.capacity ∧ block ∉ s.stash then (.error (.overCapacity O.stash.capacity), w, s)
      else (.ok (), w, { s with stash := s.stash.insert block data }) :=
  exec_checked block (fun stash => stash.insert block data) w s

/-- what is in the stash after blocks were added, whether or not they all were -/
theorem addBlocks_takes {block : ℕ} (hne : block ≠ ulongMax) (blocks : List Block) (w : World) (s : OramState β μ) :
    block ∈ ((O.addBlocks blocks).exec w s).2.2.stash ↔ O.stash.Takes s.stash blocks block := by
  have hsplit : ∀ {b : Block} {rest before after : List Block} {x : Block}, b :: rest = before ++ x :: after →
      before = [] ∧ b = x ∧ rest = after ∨ ∃ before', before = b :: before' ∧ rest = before' ++ x :: after := by
    intro b rest before after x h
    cases before with
    | nil =>
      cases h
      exact Or.inl ⟨rfl, rfl, rfl⟩
    | cons b' before' =>
      cases h
      exact Or.inr ⟨before', rfl, rfl⟩
  induction blocks generalizing w s with
  | nil =>
    refine (or_iff_left ?_).symm
    rintro ⟨before, x, after, h, -, -⟩
    simp at h
  | cons b rest ih =>
    have hexec : (O.addBlocks (b :: rest)).exec w s = Prog.exec ((if b.1 ≠ ulongMax then
        Oram.onStash (O.stash.add b.1 b.2) else pure ()) >>= fun _ => O.addBlocks rest) w s := rfl
    by_cases hdummy : b.1 = ulongMax
    · rw [hexec, if_neg (not_not.2 hdummy), Prog.exec_bind_ok (Prog.exec_pure () w s)]
      refine (ih w s).trans (or_congr_right ⟨?_, ?_⟩)
      · rintro ⟨before, x, after, rfl, hx, hroom⟩
        exact ⟨b :: before, x, after, rfl, hx, by rwa [List.cons_append, InMemoryStashAdapter.Room, if_pos hdummy]⟩
      · rintro ⟨before, x, after, h, hx, hroom⟩
        rcases hsplit h with ⟨-, rfl, -⟩ | ⟨before', rfl, rfl⟩
        · exact absurd (hx.symm.trans hdummy) hne
        · exact ⟨before', x, after, rfl, hx, by rwa [List.cons_append, InMemoryStashAdapter.Room, if_pos hdummy] at hroom⟩
    · rw [hexec, if_pos hdummy]
      by_cases hfull : s.stash.size = O.stash.capacity ∧ b.1 ∉ s.stash
      · -- the stash is full: nothing of the list is added
        have hadd := exec_stashAdd (O := O) b.1 b.2 w s
        rw [if_pos hfull] at hadd
        rw [Prog.exec_bind_error hadd]
        refine (or_iff_left ?_).symm
        rintro ⟨before, x, after, h, hx, hroom⟩
        rcases hsplit h with ⟨rfl, rfl, -⟩ | ⟨before', rfl, rfl⟩
        · rw [List.nil_append, InMemoryStashAdapter.Room, if_neg hdummy] at hroom
          exact hroom.1 hfull
        · rw [List.cons_append, InMemoryStashAdapter.Room, if_neg hdummy] at hroom
          exact hroom.1 hfull
      · have hadd := exec_stashAdd (O := O) b.1 b.2 w s
        rw [if_neg hfull] at hadd
        rw [Prog.exec_bind_ok hadd]
        refine (ih w { s with stash := s.stash.emplace b.1 b.2 }).trans ?_
        unfold InMemoryStashAdapter.Takes
        rw [UnorderedMap.mem_emplace]
        constructor
        · rintro ((rfl | h) | ⟨before, x, after, rfl, hx, hroom⟩)
          · refine Or.inr ⟨[], b, rest, rfl, rfl, ?_⟩
            rw [List.nil_append, InMemoryStashAdapter.Room, if_neg hdummy]
            exact ⟨hfull, trivial⟩
          · exact Or.inl h
          · refine Or.inr ⟨b :: before, x, after, rfl, hx, ?_⟩
            rw [List.cons_append, InMemoryStashAdapter.Room, if_neg hdummy]
            exact ⟨hfull, hroom⟩
        · rintro (h | ⟨before, x, after, h, hx, hroom⟩)
          · exact Or.inl (Or.inr h)
          · rcases hsplit h with ⟨-, rfl, -⟩ | ⟨before', rfl, rfl⟩
            · exact Or.inl (Or.inl hx.symm)
            · rw [List.cons_append, InMemoryStashAdapter.Room, if_neg hdummy] at hroom
              exact Or.inr ⟨before', x, after, rfl, hx, hroom.2⟩

/-- what is in the stash after a path was read, whether or not it was read to the end -/
theorem readPath_takes {block : ℕ} (hne : block ≠ ulongMax) (leaf : ℕ) (w : World) (s : OramState β μ) :
    block ∈ ((O.readPath leaf [] true).exec w s).2.2.stash ↔ block ∈ s.stash ∨
      ∃ blocks w' s', (O.getCache (O.pathLocations leaf []) false).exec w s = (.ok blocks, w', s') ∧
        O.stash.Takes s.stash blocks block := by
  have hexec : (O.readPath leaf [] true).exec w s = Prog.exec (O.getCache (O.pathLocations leaf []) false >>= fun blocks =>
      O.addBlocks blocks >>= fun _ => pure (O.pathLocations leaf [])) w s := rfl
  have hkeeps := getCache_keeps (O := O) (P := fun s' => s'.stash = s.stash) (fun _ _ h => h) (fun _ _ h => h)
    (O.pathLocations leaf []) false
  rw [hexec]
  rcases hget : (O.getCache (O.pathLocations leaf []) false).exec w s with ⟨e | blocks, w₁, s₁⟩
  · rw [Prog.exec_bind_error hget, hkeeps.error rfl hget]
    refine (or_iff_left ?_).symm
    rintro ⟨blocks, w', s', h, -⟩
    cases h
  · have hstash : s₁.stash = s.stash := hkeeps.ok rfl hget
    have hstate : (Prog.exec (O.addBlocks blocks >>= fun _ => pure (O.pathLocations leaf [])) w₁ s₁).2.2 =
        ((O.addBlocks blocks).exec w₁ s₁).2.2 := by
      rcases hadd : (O.addBlocks blocks).exec w₁ s₁ with ⟨e | _, w₂, s₂⟩
      · rw [Prog.exec_bind_error hadd]
      · rw [Prog.exec_bind_ok hadd, Prog.exec_pure]
    rw [Prog.exec_bind_ok hget, hstate, addBlocks_takes hne, hstash]
    constructor
    · exact fun h => Or.inr ⟨blocks, w₁, s₁, rfl, h⟩
    · rintro (h | ⟨blocks', w', s', h, htakes⟩)
      · exact Or.inl h
      · cases h
        exact htakes

end

/-! ## One access -/

/-- the bucket of a location: the cached one, or what the stored bytes decode to -/
def Oram.bucketAt {β μ : Type} (O : Oram β μ)
    (L : LawfulBackend O.storage.backend O.storage.capacity O.storage.blockSize) (s : OramState β μ) (ℓ : ℕ) : Bucket :=
  (s.cache.lookup ℓ).getD ((O.storage.decodeBucket (L.raw s.storage.backend ℓ)).toOption.getD [])

section

variable {β : Type} {mapCapacity : ℕ} (O : Oram β (PositionArray mapCapacity))
  (L : LawfulBackend O.storage.backend O.storage.capacity O.storage.blockSize)

/-- every copy of the block in the tree is on the path of the leaf that is drawn -/
def Oram.Settled (w : World) (s : OramState β (PositionArray mapCapacity)) (block : ℕ) : Prop :=
  ∀ ℓ < O.storage.capacity, (∃ x ∈ O.bucketAt L s ℓ, x.1 = block) → ℓ ∈ path O.height (O.drawnLeaf w)

/-- the block is in the stash, or it is read before the stash is full -/
def Oram.ReadInTime (w : World) (s : OramState β (PositionArray mapCapacity)) (block : ℕ) : Prop :=
  block ∈ s.stash ∨ ∃ blocks w' s', (O.getCache (O.pathLocations (s.map[block]?.getD 0) []) false).exec
      { w with rand := fun n => w.rand (n + 1) } { s with map := s.map.setIfInBounds block (O.drawnLeaf w) } =
        (.ok blocks, w', s') ∧
    O.stash.Takes s.stash blocks block

/-- the tree has no copy of the block, or one on the path of the leaf that is drawn, or the block is read in time -/
def Oram.Spared (w : World) (s : OramState β (PositionArray mapCapacity)) (block : ℕ) : Prop :=
  (∀ ℓ < O.storage.capacity, ∀ x ∈ O.bucketAt L s ℓ, x.1 ≠ block) ∨
    (∃ ℓ ∈ path O.height (O.drawnLeaf w), ∃ x ∈ O.bucketAt L s ℓ, x.1 = block) ∨ O.ReadInTime w s block

end

namespace LawfulOram

variable {β : Type} {mapCapacity : ℕ} {O : Oram β (PositionArray mapCapacity)} {L : LawfulOram O} {v v' : View} {c : Contents}
  {s s' : OramState β (PositionArray mapCapacity)} {w w' : World}

/-- the map is an array that holds the positions of the view -/
structure OnArray (L : LawfulOram O) : Prop where
  map : O.map = inMemoryPositionMap mapCapacity
  err : ∀ e, ¬ L.map.err e
  position : ∀ {v s}, L.Sees v s → ∀ {i}, i < 2 ^ O.height * O.Z → s.map[i]? = some (v.pos i)

theorem sees_bucketAt (hs : L.Sees v s) {ℓ : ℕ} (hℓ : ℓ < O.storage.capacity) : v.tree ℓ = O.bucketAt L.storage s ℓ := by
  obtain ⟨store, hstore, htree⟩ := hs.tree
  have hdecode : O.storage.decodeBucket (L.storage.raw s.storage.backend ℓ) = .ok (store ℓ) := hstore.1 ℓ hℓ
  rw [htree, Oram.bucketAt, hdecode]
  rfl

/-- the state after an access that throws -/
theorem access_error (hL : L.OnArray) (hv : Shape O v) (hs : L.Sees v s) {op : Op} (hop : op.Valid O) {e : Exception}
    (he : (O.access op.read op.block op.data []).exec w s = (.error e, w', s')) :
    ∃ v', Interrupted L v op e v' ∧ L.Sees v' s' ∧ v'.pos op.block = O.drawnLeaf w ∧
      (op.block ∈ s'.stash ↔ O.ReadInTime w s op.block) := by
  have hcap : op.block < mapCapacity := by
    obtain ⟨h, -⟩ := Vector.getElem?_eq_some_iff.1 (hL.position hs hop.block_lt)
    exact h
  have hne : op.block ≠ ulongMax := ne_ulongMax L hop.block_lt
  have hremap := exec_remap hL.map op.block w s
  rw [if_neg (not_le.2 hcap)] at hremap
  obtain ⟨v', hi, hs'⟩ := (Triple.error (access_refines hv hop.block_lt []) hs he).resolve_left (hL.err e)
  rw [access_eq, Prog.exec_bind_ok hremap] at he
  -- the map: after the first step nothing changes it
  have hkept : Kept O fun t => t.map = s.map.setIfInBounds op.block (O.drawnLeaf w) :=
    ⟨fun _ _ h => h, fun _ _ h => h, fun _ _ h => h, fun i => by rw [hL.map]; exact arrayGet_keeps i⟩
  have hmap := (hkept.steady.accessPath _ _ _ _ _).error rfl he
  have hpos : v'.pos op.block = O.drawnLeaf w := by
    have h := hL.position hs' hop.block_lt
    rw [hmap, Vector.getElem?_setIfInBounds_self_of_lt hcap] at h
    exact (Option.some.inj h).symm
  refine ⟨v', hi, hs', hpos, ?_⟩
  -- the stash: an access that throws after its path was read leaves it as it was then
  obtain ⟨v₁, ⟨hprevious, leaf, hleaf, rfl⟩, hs₁⟩ := Triple.ok (remap_refines (F := fun _ _ => False) L hop.block_lt) hs hremap
  have hpos_lt := hv.pos_lt _ hop.block_lt
  rw [hprevious] at he
  rw [Oram.ReadInTime, hprevious]
  rcases hread : (O.readPath (v.pos op.block) [] true).exec { w with rand := fun n => w.rand (n + 1) }
    { s with map := s.map.setIfInBounds op.block (O.drawnLeaf w) } with ⟨e₁ | path, w₂, s₂⟩
  · have htakes := readPath_takes (O := O) hne (v.pos op.block) { w with rand := fun n => w.rand (n + 1) }
      { s with map := s.map.setIfInBounds op.block (O.drawnLeaf w) }
    rw [hread] at htakes
    rw [Prog.exec_bind_error hread] at he
    cases he
    exact htakes
  · have htakes := readPath_takes (O := O) hne (v.pos op.block) { w with rand := fun n => w.rand (n + 1) }
      { s with map := s.map.setIfInBounds op.block (O.drawnLeaf w) }
    rw [hread] at htakes
    rw [Prog.exec_bind_ok hread] at he
    obtain ⟨mid, hmid, hs₂⟩ := Triple.ok (readPath_refines hpos_lt (shape_remapped hv hleaf).bucket_length) hs₁ hread
    have hshape := shape_updated (shape_pathRead L (shape_remapped hv hleaf) hpos_lt hmid) hop.block_lt hop.data_le
    obtain ⟨v₂, ⟨-, rfl⟩, hs₃⟩ := (Triple.error (finishAccess_refines hpos_lt hshape.stash_id []) hs₂ he).resolve_left (hL.err e)
    have hstash : ∀ k, s'.stash.lookup k = s₂.stash.lookup k := fun k =>
      (congrFun hs₃.stash k).symm.trans (congrFun hs₂.stash k)
    rw [UnorderedMap.mem_iff_lookup, hstash, ← UnorderedMap.mem_iff_lookup]
    exact htakes

/-- **What is spared is found** by the gets that follow, and nothing else is. -/
theorem found_iff_spared (L : LawfulOram O) (hv : Inv O c v) (hs : L.Sees v s) {op : Op} {e : Exception}
    (hop : op.block < 2 ^ O.height * O.Z) (hi : Interrupted L v op e v') (hs' : L.Sees v' s')
    (hpos : v'.pos op.block = O.drawnLeaf w) (hstash : op.block ∈ s'.stash ↔ O.ReadInTime w s op.block) :
    O.Spared L.storage w s op.block ↔ (c op.block ≠ none → Found O v' op.block) := by
  have hne := ne_ulongMax L hop
  have htree : v'.tree = v.tree := by
    obtain ⟨-, leaf, -, blocks, cached, calls, -, -, rfl⟩ := hi
    rfl
  have hleaf : O.drawnLeaf w < 2 ^ (O.height - 1) := by
    rw [← hpos]
    exact (shape_interrupted L hv.toShape hop hi).pos_lt _ hop
  have hfound : Found O v' op.block ↔ op.block ∈ s'.stash ∨
      ∃ ℓ ∈ path O.height (O.drawnLeaf w), ∃ x ∈ O.bucketAt L.storage s ℓ, x.1 = op.block := by
    rw [Found, hpos, htree, hs'.stash, UnorderedMap.mem_iff_lookup]
    refine or_congr_right (exists_congr fun ℓ => and_congr_right fun hℓ => ?_)
    rw [sees_bucketAt hs (L.mem_path_capacity hleaf hℓ)]
  rw [hfound, hstash, Oram.Spared]
  constructor
  · rintro (hno | hpath | htime) hc
    · obtain ⟨p, hp⟩ := Option.ne_none_iff_exists'.1 hc
      rcases hv.copy _ p hp with ⟨d, hd⟩ | ⟨ℓ, x, hx, hxb⟩
      · refine Or.inl (Or.inl (UnorderedMap.mem_iff_lookup.2 ⟨d, ?_⟩))
        rwa [hs.stash] at hd
      · have hℓ := hv.tree_path ℓ x hx (hxb ▸ hne)
        have hlt := L.mem_path_capacity (hv.pos_lt _ (hxb ▸ hop)) hℓ
        rw [sees_bucketAt hs hlt] at hx
        exact absurd hxb (hno ℓ hlt x hx)
    · exact Or.inr hpath
    · exact Or.inl htime
  · intro h
    by_cases hno : ∀ ℓ < O.storage.capacity, ∀ x ∈ O.bucketAt L.storage s ℓ, x.1 ≠ op.block
    · exact Or.inl hno
    · push Not at hno
      obtain ⟨ℓ, hℓ, x, hx, hxb⟩ := hno
      rw [← sees_bucketAt hs hℓ] at hx
      obtain ⟨p, hp, -⟩ := hv.tree_good ℓ x hx (hxb ▸ hne)
      rw [hxb] at hp
      exact Or.inr (h (by simp [hp])).symm

end LawfulOram

/-! ## The accesses of a run -/

section

variable {β μ : Type} (O : Oram β μ)

/-- an access as it starts: with the world and the state it finds -/
structure Start (β μ : Type) where
  op : Op
  world : World
  state : OramState β μ

/-- the outcome of an access -/
def Oram.startExec (x : Start β μ) : Except Exception Bytes × World × OramState β μ :=
  (O.access x.op.read x.op.block x.op.data []).exec x.world x.state

/-- the accesses that are started, one after the other: up to the first that throws -/
def Oram.accessStarts : List Op → World → OramState β μ → List (Start β μ)
  | [], _, _ => []
  | op :: ops, w, s =>
    ⟨op, w, s⟩ :: match O.startExec ⟨op, w, s⟩ with
      | (.ok _, w', s') => accessStarts ops w' s'
      | (.error _, _, _) => []

/-- the accesses of the loop over a batch from an index on. The index has 32 bits and starts again from zero. -/
def loopOps (requests : List Block) : ℕ → ℕ → List Op
  | 0, _ => []
  | fuel + 1, i =>
    if i < requests.length then
      let request := requests.getD i (0, [])
      ⟨request.2.length == 0, request.1, request.2⟩ :: loopOps requests fuel ((i + 1) % 2 ^ 32)
    else []

/-- the accesses that a call starts -/
def Oram.starts : Call → World → OramState β μ → List (Start β μ)
  | .get block, w, s => [⟨⟨true, block, []⟩, w, s⟩]
  | .put block data, w, s => [⟨⟨false, block, data⟩, w, s⟩]
  | .multiple requests, w, s =>
    if O.batchSize < requests.length then []
    else match (O.prepare requests).exec w s with
      | (.ok _, w', s') => O.accessStarts (loopOps requests (requests.length + 1) 0) w' s'
      | (.error _, _, _) => []

/-- the accesses that a sequence of calls starts, when the caller goes on after exceptions -/
def Oram.runStarts : List Call → World → OramState β μ → List (Start β μ)
  | [], _, _ => []
  | call :: calls, w, s => O.starts call w s ++ runStarts calls ((O.exec call).exec w s).2.1 ((O.exec call).exec w s).2.2

def Oram.Throws (x : Start β μ) : Prop := ∃ e, (O.startExec x).1 = .error e

/-- the accesses of a list that returned -/
def Oram.returned (starts : List (Start β μ)) : List Op := (starts.filter fun x => (O.startExec x).1.isOk).map Start.op

/-- what accesses that returned have written -/
def Oram.contents (calls : List Call) (w : World) (s : OramState β μ) : Contents :=
  Contents.after (fun _ => none) (O.returned (O.runStarts calls w s))

end

namespace LawfulOram

variable {β : Type} {mapCapacity : ℕ} {O : Oram β (PositionArray mapCapacity)} {L : LawfulOram O} {c : Contents}
  {s s' : OramState β (PositionArray mapCapacity)} {w w' : World}

/-- the state holds the contents c, some of it perhaps in the cache -/
def Stores (L : LawfulOram O) (c : Contents) (s : OramState β (PositionArray mapCapacity)) : Prop :=
  ∃ v, Inv O c v ∧ L.Sees v s

theorem Stores.getsFind (h : L.Stores c s) : L.GetsFind c s := by
  obtain ⟨v, hv, hs⟩ := h
  exact ⟨v, hv.readable L, hs⟩

/-- accesses whose failures are settled -/
def AllSettled (L : LawfulOram O) (starts : List (Start β (PositionArray mapCapacity))) : Prop :=
  ∀ x ∈ starts, O.Throws x → O.Settled L.storage x.world x.state x.op.block

/-- **An access whose failure is settled keeps the invariant**, for the contents it has written if it returned. -/
theorem stores_access (hL : L.OnArray) (hsmall : O.Small) (hs : L.Stores c s) {op : Op} (hop : op.Valid O)
    (hsettled : O.Throws ⟨op, w, s⟩ → O.Settled L.storage w s op.block) :
    L.Stores (c.after (O.returned [⟨op, w, s⟩])) (O.startExec ⟨op, w, s⟩).2.2 := by
  obtain ⟨v, hv, hs⟩ := hs
  rcases he : (O.access op.read op.block op.data []).exec w s with ⟨e | r, w', s'⟩
  · have hstart : O.startExec ⟨op, w, s⟩ = (.error e, w', s') := he
    have hreturned : O.returned [⟨op, w, s⟩] = [] := by simp [Oram.returned, hstart, Except.isOk, Except.toBool]
    rw [hstart, hreturned]
    obtain ⟨v', hi, hs', hpos, -⟩ := access_error hL hv.toShape hs hop he
    refine ⟨v', inv_interrupted L hv hop.block_lt hi fun ℓ x hx hxb => ?_, hs'⟩
    have hne := ne_ulongMax L hop.block_lt
    have hℓ := L.mem_path_capacity (hv.pos_lt _ (hxb ▸ hop.block_lt)) (hv.tree_path ℓ x hx (hxb ▸ hne))
    rw [hpos]
    exact hsettled ⟨e, congrArg Prod.fst hstart⟩ ℓ hℓ ⟨x, sees_bucketAt hs hℓ ▸ hx, hxb⟩
  · have hstart : O.startExec ⟨op, w, s⟩ = (.ok r, w', s') := he
    have hreturned : O.returned [⟨op, w, s⟩] = [op] := by simp [Oram.returned, hstart, Except.isOk, Except.toBool]
    rw [hstart, hreturned]
    obtain ⟨v', ha, hs'⟩ := Triple.ok (access_refines hv.toShape hop.block_lt []) hs he
    exact ⟨v', (inv_accessed L hsmall hv hop ha).1, hs'⟩

/-- an upload keeps the contents, whether or not it returns -/
theorem syncCache_stores (hL : L.OnArray) : Triple (L.Stores c) O.syncCache (fun _ => L.Stores c) (fun _ => L.Stores c) := by
  apply Triple.exists_pre
  intro v
  apply Triple.of_pure
  intro hv
  refine Triple.conseq (syncCache_refines (hv.toShape.flushable L)) (fun _ h => h) (fun _ s hs => ?_) fun e s hs => ?_
  · obtain ⟨v', hsync, hs⟩ := hs
    exact ⟨v', inv_synced hv hsync, hs⟩
  · obtain ⟨v', hfault, hs⟩ := hs.resolve_left (hL.err e)
    exact ⟨v', inv_uploadFault hv hfault, hs⟩

/-- the download of a batch keeps the contents, whether or not it returns -/
theorem prepare_stores (hL : L.OnArray) {requests : List Block} (hr : ∀ r ∈ requests, r.1 < 2 ^ O.height * O.Z) :
    Triple (L.Stores c) (O.prepare requests) (fun _ => L.Stores c) (fun _ => L.Stores c) := by
  apply Triple.exists_pre
  intro v
  apply Triple.of_pure
  intro hv
  refine Triple.conseq (prepare_refines L hv.toShape hr) (fun _ h => h) (fun _ s hs => ?_) fun e s hs => ?_
  · obtain ⟨v', hp, hs⟩ := hs
    exact ⟨v', inv_prepared hv hp, hs⟩
  · obtain ⟨v', ⟨-, hp⟩, hs⟩ := hs.resolve_left (hL.err e)
    exact ⟨v', inv_prepared hv hp, hs⟩

/-! ## Calls and runs -/

theorem returned_cons (x : Start β (PositionArray mapCapacity)) (starts : List (Start β (PositionArray mapCapacity))) :
    O.returned (x :: starts) = O.returned [x] ++ O.returned starts := by
  rw [Oram.returned, Oram.returned, Oram.returned, ← List.map_append, ← List.filter_append]
  rfl

theorem returned_append (a b : List (Start β (PositionArray mapCapacity))) :
    O.returned (a ++ b) = O.returned a ++ O.returned b := by
  rw [Oram.returned, List.filter_append, List.map_append]
  rfl

theorem loopOps_round {requests : List Block} {i : ℕ} {request : Block} (h : requests[i]? = some request) (fuel : ℕ) :
    loopOps requests (fuel + 1) i =
      ⟨request.2.length == 0, request.1, request.2⟩ :: loopOps requests fuel ((i + 1) % 2 ^ 32) := by
  obtain ⟨hi, rfl⟩ := List.getElem?_eq_some_iff.1 h
  have hrequest : requests.getD i (0, []) = requests[i] := by
    rw [List.getD_eq_getElem?_getD, h, Option.getD_some]
  rw [loopOps, if_pos hi]
  simp only [hrequest]

theorem loopOps_end {requests : List Block} {i : ℕ} (h : requests[i]? = none) (fuel : ℕ) :
    loopOps requests (fuel + 1) i = [] := by
  rw [loopOps, if_neg (not_lt.2 (List.getElem?_eq_none_iff.1 h))]

theorem get_response (block : ℕ) (response : Bytes) :
    InMemoryStashAdapter.get block response =
      (do return (← InMemoryStashAdapter.get block []) ++ response : Run Stash Bytes) := by
  unfold InMemoryStashAdapter.get
  rw [bind_assoc]
  congr 1
  funext stash
  cases stash.lookup block with
  | none => simp
  | some data => simp

/-- the response vector is put behind what an access returns -/
theorem access_response {β μ : Type} (O : Oram β μ) (read : Bool) (block : ℕ) (data response : Bytes) :
    O.access read block data response = (do return (← O.access read block data []) ++ response) := by
  have hget : Oram.onStash (InMemoryStashAdapter.get block response) =
      (do return (← Oram.onStash (InMemoryStashAdapter.get block [])) ++ response : Run (OramState β μ) Bytes) := by
    rw [get_response]
    exact Prog.zoom_map _ _ (· ++ response)
  rw [access_eq, access_eq]
  cases read with
  | true => simp [Oram.finishAccess, hget]
  | false => simp [Oram.finishAccess, hget]

/-- the accesses of the loop over a batch -/
theorem stores_loop (hL : L.OnArray) (hsmall : O.Small) {requests : List Block}
    (hr : ∀ r ∈ requests, Op.Valid O ⟨r.2.length == 0, r.1, r.2⟩) (hs : L.Stores c s) (fuel i : ℕ) (response : List Bytes)
    (hsettled : L.AllSettled (O.accessStarts (loopOps requests fuel i) w s)) :
    L.Stores (c.after (O.returned (O.accessStarts (loopOps requests fuel i) w s)))
      ((O.batchLoop requests fuel i response).exec w s).2.2 := by
  induction fuel generalizing c w s i response with
  | zero => exact hs
  | succ fuel ih =>
    rcases h : requests[i]? with _ | request
    · rw [batchLoop_end h, loopOps_end h]
      exact hs
    · rw [loopOps_round h, Oram.accessStarts] at hsettled ⊢
      have hone := stores_access hL hsmall hs (hr request (List.mem_of_getElem? h)) (hsettled _ List.mem_cons_self)
      rw [returned_cons, Contents.after_append, batchLoop_round h, access_response, bind_assoc]
      rcases he : O.startExec ⟨⟨request.2.length == 0, request.1, request.2⟩, w, s⟩ with ⟨e | a, w₁, s₁⟩
      · rw [he] at hone
        have hexec : (O.access (request.2.length == 0) request.1 request.2 []).exec w s = (.error e, w₁, s₁) := he
        rw [Prog.exec_bind_error hexec]
        exact hone
      · rw [he] at hone hsettled
        have hexec : (O.access (request.2.length == 0) request.1 request.2 []).exec w s = (.ok a, w₁, s₁) := he
        rw [Prog.exec_bind_ok hexec, pure_bind]
        exact ih hone _ _ fun x hx => hsettled x (List.mem_cons_of_mem _ hx)

/-- **A call whose failures are settled keeps the invariant**, for the contents that its accesses have written. -/
theorem stores_exec (hL : L.OnArray) (hsmall : O.Small) (hs : L.Stores c s) {call : Call} (hcall : call.Valid O)
    (hsettled : L.AllSettled (O.starts call w s)) :
    L.Stores (c.after (O.returned (O.starts call w s))) ((O.exec call).exec w s).2.2 := by
  have hsync : ∀ {α : Type} (a : α), Triple (L.Stores (c.after (O.returned (O.starts call w s))))
      (do O.syncCache; return a : Run (OramState β (PositionArray mapCapacity)) α)
      (fun _ => L.Stores (c.after (O.returned (O.starts call w s))))
      (fun _ => L.Stores (c.after (O.returned (O.starts call w s)))) := fun a =>
    (syncCache_stores hL).bind fun _ => Triple.pure fun _ h => h
  cases call with
  | get block =>
    rw [Oram.starts] at hsettled hsync ⊢
    have haccess := stores_access hL hsmall hs (hcall.1 _ List.mem_cons_self) (hsettled _ List.mem_cons_self)
    exact Triple.bind_state (Triple.bind_state haccess fun r => hsync r) fun _ => Triple.pure fun _ h => h
  | put block data =>
    rw [Oram.starts] at hsettled hsync ⊢
    have haccess := stores_access hL hsmall hs (hcall.1 _ List.mem_cons_self) (hsettled _ List.mem_cons_self)
    exact Triple.bind_state (Triple.bind_state haccess fun _ => syncCache_stores hL) fun _ => Triple.pure fun _ h => h
  | multiple requests =>
    have hbatch : ¬ O.batchSize < requests.length := not_lt.2 hcall.2
    have hr : ∀ r ∈ requests, Op.Valid O ⟨r.2.length == 0, r.1, r.2⟩ := fun r hm => hcall.1 _ (List.mem_map_of_mem hm)
    refine Triple.bind_state ?_ fun _ => Triple.pure fun _ h => h
    rw [multiple_eq, if_neg hbatch]
    rw [Oram.starts, if_neg hbatch] at hsettled hsync ⊢
    have hprepare := Triple.state (w := w) (prepare_stores (c := c) hL fun r hm => (hr r hm).block_lt) hs
    rcases hexec : (O.prepare requests).exec w s with ⟨e | blocks, w₁, s₁⟩
    · rw [hexec] at hprepare
      rw [Prog.exec_bind_error hexec]
      exact hprepare
    · rw [hexec] at hprepare hsettled hsync
      rw [Prog.exec_bind_ok hexec]
      exact Triple.bind_state (stores_loop hL hsmall hr hprepare _ _ _ hsettled) fun answers => hsync answers

/-- **A run whose failures are settled keeps the invariant.** -/
theorem stores_attempts (hL : L.OnArray) (hsmall : O.Small) {calls : List Call} (hcalls : ∀ call ∈ calls, call.Valid O)
    (hs : L.Stores c s) (hsettled : L.AllSettled (O.runStarts calls w s)) :
    L.Stores (c.after (O.returned (O.runStarts calls w s))) ((O.attempts calls).exec w s).2.2 := by
  induction calls generalizing c w s with
  | nil => exact hs
  | cons call calls ih =>
    rw [Oram.runStarts] at hsettled ⊢
    have hcall := stores_exec hL hsmall hs (hcalls call List.mem_cons_self) fun x hx =>
      hsettled x (List.mem_append_left _ hx)
    have hrest := ih (fun c hc => hcalls c (List.mem_cons_of_mem _ hc)) hcall fun x hx =>
      hsettled x (List.mem_append_right _ hx)
    rw [returned_append, Contents.after_append, Oram.attempts, List.mapM_cons, Prog.exec_bind_ok (Prog.exec_attempt _ w s)]
    exact Triple.bind_state hrest fun _ => Triple.pure fun _ h => h

end LawfulOram

/-! ## The result -/

/-- every sequence of gets that returns answers like the map c -/
def GetsAnswer {β μ : Type} (O : Oram β μ) (c : Contents) (s : OramState β μ) : Prop :=
  ∀ blocks : List ℕ, (∀ block ∈ blocks, block < 2 ^ O.height * O.Z) → ∀ w replies w' s',
    (O.run (blocks.map Call.get)).exec w s = (.ok replies, w', s') → c.RepliesAll (blocks.map Call.get) replies

theorem arrayOram_onArray {β : Type} {S : StorageAdapter β} {mapCapacity height : ℕ}
    (h : Sizes S.toAbsStorageAdapter S.crypto mapCapacity height) (L : LawfulBackend S.backend S.capacity S.blockSize)
    (stashCapacity batchSize : ℕ) : (arrayOram_lawful h L stashCapacity batchSize).OnArray where
  map := rfl
  err _ := id
  position hs _ hi := arrayOram_position h L stashCapacity batchSize hs hi

/-- a get or a put throws what its access throws, and leaves the state that its access leaves -/
theorem exec_of_access_error {β μ : Type} {O : Oram β μ} {call : Call} {op : Op} (hops : call.ops = [op])
    (hbatch : call.batch = []) {e : Exception} {w w' : World} {s s' : OramState β μ}
    (he : (O.access op.read op.block op.data []).exec w s = (.error e, w', s')) :
    (O.exec call).exec w s = (.error e, w', s') := by
  rw [exec_eq, accesses_single O hops hbatch]
  exact Prog.exec_bind_error (Prog.exec_bind_error he)

/-- **A failed access loses nothing if its block is spared**, and loses the block if it is not. After the construction,
calls are made and go on after exceptions, and the failures among them are settled. Then a get or a put is made whose
access throws. The contents c are what the accesses that returned have written. -/
theorem failed_access {β : Type} {S : StorageAdapter β} {mapCapacity stashCapacity height batchSize : ℕ}
    (h : Sizes S.toAbsStorageAdapter S.crypto mapCapacity height) (hsmall : 2 ^ height * S.Z ≤ 2 ^ 31)
    (L : LawfulBackend S.backend S.capacity S.blockSize) {s₀ s₁ s s' : OramState β (PositionArray mapCapacity)}
    {w₀ w₁ w₂ w w' : World} (hfresh : Fresh s₀)
    (hconstruct : (arrayOram S mapCapacity stashCapacity height batchSize).construct.exec w₀ s₀ = (.ok (), w₁, s₁))
    {calls : List Call} (hcalls : ∀ call ∈ calls, call.Valid (arrayOram S mapCapacity stashCapacity height batchSize))
    (hsettled : ∀ x ∈ (arrayOram S mapCapacity stashCapacity height batchSize).runStarts calls w₁ s₁,
      (arrayOram S mapCapacity stashCapacity height batchSize).Throws x →
        (arrayOram S mapCapacity stashCapacity height batchSize).Settled L x.world x.state x.op.block)
    {outcomes : List (Except Exception Reply)}
    (hrun : ((arrayOram S mapCapacity stashCapacity height batchSize).attempts calls).exec w₁ s₁ = (.ok outcomes, w₂, s))
    {call : Call} (hcall : call.Valid (arrayOram S mapCapacity stashCapacity height batchSize)) {op : Op}
    (hops : call.ops = [op]) (hbatch : call.batch = []) {e : Exception}
    (haccess : ((arrayOram S mapCapacity stashCapacity height batchSize).access op.read op.block op.data []).exec w s =
      (.error e, w', s')) :
    ∃ c, c = (arrayOram S mapCapacity stashCapacity height batchSize).contents calls w₁ s₁ ∧
      ((arrayOram S mapCapacity stashCapacity height batchSize).exec call).exec w s = (.error e, w', s') ∧
      GetsAnswer (arrayOram S mapCapacity stashCapacity height batchSize) c s ∧
      ((arrayOram S mapCapacity stashCapacity height batchSize).Spared L w s op.block →
        GetsAnswer (arrayOram S mapCapacity stashCapacity height batchSize) c s') ∧
      (¬ (arrayOram S mapCapacity stashCapacity height batchSize).Spared L w s op.block →
        c op.block ≠ none ∧ ∀ w₃ r w₄ s₄,
          ((arrayOram S mapCapacity stashCapacity height batchSize).get op.block []).exec w₃ s' = (.ok r, w₄, s₄) → r = []) := by
  refine ⟨_, rfl, exec_of_access_error hops hbatch haccess, ?_⟩
  set O := arrayOram S mapCapacity stashCapacity height batchSize
  have hsmallO : O.Small := hsmall
  have hop : op.Valid O := hcall.1 op (hops ▸ List.mem_cons_self)
  have hL := arrayOram_onArray h L stashCapacity batchSize
  have hempty : (arrayOram_lawful h L stashCapacity batchSize).Stores (fun _ => none) s₁ := by
    obtain ⟨v, hv, -, -, hs⟩ := (LawfulOram.construct_triple (arrayOram_lawful h L stashCapacity batchSize)).ok
      (arrayOram_fresh h L stashCapacity batchSize hfresh) hconstruct
    exact ⟨v, hv, hs⟩
  have hstores : (arrayOram_lawful h L stashCapacity batchSize).Stores (O.contents calls w₁ s₁) s := by
    have hstate := LawfulOram.stores_attempts hL hsmallO hcalls hempty hsettled
    rwa [hrun] at hstate
  have hanswer : ∀ {c : Contents} {s}, (arrayOram_lawful h L stashCapacity batchSize).GetsFind c s → GetsAnswer O c s :=
    fun hs blocks hb w replies w' s' hexec => (LawfulOram.gets_triple hsmallO hb).ok hs hexec
  refine ⟨hanswer hstores.getsFind, ?_⟩
  obtain ⟨v, hv, hs⟩ := hstores
  obtain ⟨v', hi, hs', hpos, hstash⟩ := LawfulOram.access_error hL hv.toShape hs hop haccess
  have hspared : O.Spared L w s op.block ↔ _ := LawfulOram.found_iff_spared _ hv hs hop.block_lt hi hs' hpos hstash
  have hshape := LawfulOram.shape_interrupted _ hv.toShape hop.block_lt hi
  refine ⟨fun hsp => hanswer ⟨v', LawfulOram.readable_interrupted _ hv hop.block_lt hi (hspared.1 hsp), hs'⟩, fun hnot => ?_⟩
  have hlost := fun hfound => hnot (hspared.2 hfound)
  refine ⟨fun hnone => hlost fun hc => absurd hnone hc, fun w₃ r w₄ s₄ hget => ?_⟩
  exact (LawfulOram.lost_triple hshape hop.block_lt fun hf => hlost fun _ => hf).ok hs' hget

/-- On the tiny ORAM with a stash of one block: a put, and one of another block that finds the stash full. -/
theorem tiny_failure : ∃ w₁ s₁ outcomes w s w' s',
    (inMemoryOram tinyStorage plainCrypto 2 1 1 4).construct.exec zeroWorld (zeroState tinyStorage 2) = (.ok (), w₁, s₁) ∧
    ((inMemoryOram tinyStorage plainCrypto 2 1 1 4).attempts [.put 0 [7]]).exec w₁ s₁ = (.ok outcomes, w, s) ∧
    (∀ x ∈ (inMemoryOram tinyStorage plainCrypto 2 1 1 4).runStarts [.put 0 [7]] w₁ s₁,
      ¬ (inMemoryOram tinyStorage plainCrypto 2 1 1 4).Throws x) ∧
    ((inMemoryOram tinyStorage plainCrypto 2 1 1 4).access false 1 [8] []).exec w s = (.error (.overCapacity 1), w', s') ∧
    ∀ ℓ < 2, ∀ x ∈ (inMemoryOram tinyStorage plainCrypto 2 1 1 4).bucketAt (inMemoryBackend_lawful 2 64) s ℓ, x.1 ≠ 1 := by
  set built := (inMemoryOram tinyStorage plainCrypto 2 1 1 4).construct.exec zeroWorld (zeroState tinyStorage 2) with hbuilt
  set put := ((inMemoryOram tinyStorage plainCrypto 2 1 1 4).attempts [.put 0 [7]]).exec built.2.1 built.2.2 with hput
  have hconstruct : built.1 = .ok () := by
    rw [hbuilt]
    decide +kernel
  have hreturned : put.1 = .ok [.ok .done] := by
    rw [hput, hbuilt]
    decide +kernel
  have hfirst : ((inMemoryOram tinyStorage plainCrypto 2 1 1 4).startExec ⟨⟨false, 0, [7]⟩, built.2.1, built.2.2⟩).1 =
      .ok [7] := by
    rw [hbuilt]
    decide +kernel
  have hsecond : (((inMemoryOram tinyStorage plainCrypto 2 1 1 4).access false 1 [8] []).exec put.2.1 put.2.2).1 =
      .error (.overCapacity 1) := by
    rw [hput, hbuilt]
    decide +kernel
  have hno : ∀ ℓ < 2, ∀ x ∈ (inMemoryOram tinyStorage plainCrypto 2 1 1 4).bucketAt (inMemoryBackend_lawful 2 64) put.2.2 ℓ,
      x.1 ≠ 1 := by
    rw [hput, hbuilt]
    decide +kernel
  clear_value put built
  refine ⟨built.2.1, built.2.2, [.ok .done], put.2.1, put.2.2, _, _, Prod.ext hconstruct rfl, ?_, ?_,
    Prog.exec_eq hsecond, hno⟩
  · exact hput.symm.trans (Prod.ext hreturned rfl)
  · intro x hx hthrows
    rw [Oram.runStarts, Oram.starts, Oram.runStarts, List.append_nil, List.mem_singleton] at hx
    obtain ⟨e, he⟩ := hthrows
    rw [hx, hfirst] at he
    cases he

/-- the put that failed has cost nothing -/
theorem failed_access_tiny : ∃ w₁ s₁ s',
    GetsAnswer (inMemoryOram tinyStorage plainCrypto 2 1 1 4)
      ((inMemoryOram tinyStorage plainCrypto 2 1 1 4).contents [.put 0 [7]] w₁ s₁) s' := by
  obtain ⟨w₁, s₁, outcomes, w, s, w', s', hconstruct, hput, hreturns, haccess, hno⟩ := tiny_failure
  have hcall : Call.Valid (inMemoryOram tinyStorage plainCrypto 2 1 1 4) (.put 1 [8]) := by decide
  obtain ⟨c, rfl, -, -, hspared, -⟩ := failed_access tiny_sizes (by decide) (inMemoryBackend_lawful 2 64)
    (zeroState_fresh tinyStorage 2) hconstruct (by decide) (fun x hx hthrows => absurd hthrows (hreturns x hx)) hput
    hcall rfl rfl haccess
  exact ⟨w₁, s₁, s', hspared (Or.inl hno)⟩

/-! ## A lost block -/

/-- the in-memory provider behind a connection that the world may cut when it reads -/
def flakyBackend (capacity blockSize : ℕ) : Backend (BlockArray capacity blockSize) where
  getInternal location := do
    let outcome ← Prog.world fun w => (w.iter 0, { w with iter := fun n => w.iter (n + 1) })
    if outcome = 1 then throw (.backend "connection lost") else return (← Prog.read).read location
  setInternal location raw := Prog.modify fun blocks => blocks.write location raw
  getInternalBatch := none
  setInternalBatch := none
  supportsBatchGet := false
  supportsBatchSet := false

/-- four buckets of one block of 32 bytes, for a tree of height 2 -/
def smallStorage : AbsStorageAdapter :=
  ⟨List.replicate 32 0, 1, 0, 4, 32, zeroKey_length, two_blocks_32, whole_blocks_32, Nat.one_ne_zero⟩

def flakyOram : Oram (BlockArray smallStorage.capacity smallStorage.blockSize) (PositionArray 4) :=
  arrayOram { smallStorage with crypto := plainCrypto, backend := flakyBackend smallStorage.capacity smallStorage.blockSize } 4 5 2
    4

/-- a world in which the connection is cut and the leaf 1 is drawn -/
def cutWorld : World := ⟨fun _ => 1, fun _ => 1⟩

/-- **A failed get loses its block.** Block 0 is put, and lies in the bucket of leaf 0. A get of it draws leaf 1 and throws
because the storage does. The next get finds nothing, where without the one that failed it finds the payload. -/
theorem failed_get_loses_block : ∃ s w' s', Reached flakyOram s ∧
    (flakyOram.exec (.get 0)).exec cutWorld s = (.error (.backend "connection lost"), w', s') ∧
    ((flakyOram.exec (.get 0)).exec zeroWorld s).1 = .ok (.got (7 :: List.replicate 31 0)) ∧
    ((flakyOram.exec (.get 0)).exec zeroWorld s').1 = .ok (.got []) ∧
    ¬ ∃ c, GetsAnswer flakyOram c s ∧ GetsAnswer flakyOram c s' := by
  set built := flakyOram.construct.exec zeroWorld (zeroState smallStorage 4) with hbuilt
  set put := (flakyOram.attempts [.put 0 [7]]).exec built.2.1 built.2.2 with hput
  set failed := (flakyOram.exec (.get 0)).exec cutWorld put.2.2 with hfailed
  have hconstruct : built.1 = .ok () := by
    rw [hbuilt]
    decide +kernel
  have hreturned : put.1 = .ok [.ok .done] := by
    rw [hput, hbuilt]
    decide +kernel
  have hcut : failed.1 = .error (.backend "connection lost") := by
    rw [hfailed, hput, hbuilt]
    decide +kernel
  have hwithout : ((flakyOram.run ([0].map Call.get)).exec zeroWorld put.2.2).1 = .ok [.got (7 :: List.replicate 31 0)] := by
    rw [hput, hbuilt]
    decide +kernel
  have hwith : ((flakyOram.run ([0].map Call.get)).exec zeroWorld failed.2.2).1 = .ok [.got []] := by
    rw [hfailed, hput, hbuilt]
    decide +kernel
  have hwithout₁ : ((flakyOram.exec (.get 0)).exec zeroWorld put.2.2).1 = .ok (.got (7 :: List.replicate 31 0)) := by
    rw [hput, hbuilt]
    decide +kernel
  have hwith₁ : ((flakyOram.exec (.get 0)).exec zeroWorld failed.2.2).1 = .ok (.got []) := by
    rw [hfailed, hput, hbuilt]
    decide +kernel
  clear_value failed put built
  have hreached : Reached flakyOram put.2.2 :=
    ⟨zeroState smallStorage 4, zeroWorld, built.2.1, built.2.2, [.put 0 [7]], [.ok .done], put.2.1,
      zeroState_fresh smallStorage 4, hbuilt.symm.trans (Prod.ext hconstruct rfl), hput.symm.trans (Prod.ext hreturned rfl)⟩
  refine ⟨put.2.2, failed.2.1, failed.2.2, hreached, ?_, hwithout₁, hwith₁, ?_⟩
  · exact hfailed.symm.trans (Prod.ext hcut rfl)
  · rintro ⟨c, h₁, h₂⟩
    have hvalid : ∀ block ∈ [0], block < 2 ^ flakyOram.height * flakyOram.Z := by decide
    obtain ⟨ha₁, -⟩ := h₁ [0] hvalid zeroWorld _ _ _ (Prog.exec_eq hwithout)
    obtain ⟨ha₂, -⟩ := h₂ [0] hvalid zeroWorld _ _ _ (Prog.exec_eq hwith)
    -- the two answers are padded forms of no one payload
    obtain ⟨hpadded₁, hnothing⟩ := (c.answers_read rfl _).1 ha₁
    obtain ⟨hpadded₂, -⟩ := (c.answers_read rfl _).1 ha₂
    cases hc : c 0 with
    | none => exact absurd (hnothing hc) (by simp)
    | some p =>
      obtain ⟨k, hk⟩ := hpadded₂ p hc
      obtain ⟨rfl, -⟩ := List.append_eq_nil_iff.1 hk.symm
      obtain ⟨k', hk'⟩ := hpadded₁ [] hc
      cases k' with
      | zero => cases hk'
      | succ k' =>
        rw [List.nil_append, List.replicate_succ] at hk'
        injection hk' with h7 _
        exact absurd h7 (by decide)

end PathOram
