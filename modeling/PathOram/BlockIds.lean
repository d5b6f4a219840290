/-
Block IDs in the eviction.

`writePath` collects the IDs to delete in a vector of `int`s, so an ID from 2^31 on comes back as another number, and
the block that was written to the tree stays in the stash.

- `writePath_exact_iff`: **when the stash is exact.** For every position map, stash and leaf, the eviction leaves in the
  stash just what it did not place, for every order of the stash, if and only if every ID it may place is exact as an
  `int`: below 2^31, or one of the last 2^31.
-/
import PathOram.InMemory

namespace PathOram

open Lib

/-! ## The property -/

section Exact

variable {β μ : Type}

/-- the block is in a bucket that was written for the path -/
def Placed (O : Oram β μ) (leaf : ℕ) (s : OramState β μ) (b : Block) : Prop :=
  ∃ level < O.height, ∃ bucket, s.cache.lookup (O.bucketForLevelLeaf level leaf) = some bucket ∧ b ∈ bucket

/-- the stash of s' is that of s less the blocks placed. A record with the ID of an empty block is a dummy. -/
structure StashExact (O : Oram β μ) (leaf : ℕ) (s s' : OramState β μ) : Prop where
  no_new : ∀ id d, s'.stash.lookup id = some d → s.stash.lookup id = some d
  removed_placed : ∀ id d, s.stash.lookup id = some d → s'.stash.lookup id = none → Placed O leaf s' (id, d)
  placed_removed : ∀ id d, s.stash.lookup id = some d → id ≠ ulongMax → Placed O leaf s' (id, d) →
    s'.stash.lookup id = none

/-- an ID that is exact as an `int` -/
def Narrow (id : ℕ) : Prop := id < 2 ^ 31 ∨ 2 ^ 64 - 2 ^ 31 ≤ id

end Exact

/-! ## The order of the stash -/

/-- in a world that draws zeroes a shuffle keeps the order -/
theorem exec_shuffle_zero {σ α : Type} {w : World} (hw : w.rand = fun _ => 0) (l : List α) (s : σ) :
    Prog.exec (shuffle l : Run σ (List α)) w s = (.ok l, w, s) := by
  have hdraw : ∀ max, Prog.exec (getRandomUInt max : Run σ ℕ) w s = (.ok 0, w, s) := by
    intro max
    obtain ⟨rand, iter⟩ := w
    cases hw
    simp only [getRandomUInt, randBytes, Prog.exec_bind, Prog.exec_world, Prog.exec_pure, Nat.zero_mod]
  have hloop : ∀ (n : ℕ) (is : List ℕ), Prog.exec (is.foldlM (fun l i => do
      let j ← getRandomUInt (n - i)
      return swapAt l i (i + j)) l : Run σ (List α)) w s = (.ok l, w, s) := by
    intro n is
    induction is with
    | nil => rfl
    | cons i is ih =>
      have hstep : Prog.exec (do
          let j ← getRandomUInt (n - i)
          return swapAt l i (i + j) : Run σ (List α)) w s = (.ok l, w, s) := by
        rw [Prog.exec_bind_ok (hdraw _), Nat.add_zero, swapAt_self, Prog.exec_pure]
      rw [List.foldlM_cons, Prog.exec_bind_ok hstep, ih]
  unfold shuffle
  dsimp only
  split_ifs
  · exact hloop _ _
  · rfl

/-- every block of the stash comes first in some world -/
theorem exists_getAll_head {stash : Stash} {b : Block} (h : b ∈ stash.toList) :
    ∃ w w' cs, Prog.exec InMemoryStashAdapter.getAll w stash = (.ok (b :: cs), w', stash) ∧
      LawfulOram.Lists (b :: cs) fun k => stash.lookup k := by
  obtain ⟨k, cs, hk⟩ := exists_arrange_head h
  have hperm : (b :: cs).Perm stash.toList := hk ▸ arrange_perm k _
  refine ⟨⟨fun _ => 0, fun _ => k⟩, ⟨fun _ => 0, fun _ => k⟩, cs, ?_,
    ((hperm.map Prod.fst).nodup_iff).2 stash.nodup_keys, fun k d => ?_⟩
  · have hread : Prog.exec (Prog.read : Run Stash Stash) ⟨fun _ => 0, fun _ => k⟩ stash =
        (.ok stash, ⟨fun _ => 0, fun _ => k⟩, stash) := rfl
    have hiter : Prog.exec (iterate stash.toList : Run Stash (List Block)) ⟨fun _ => 0, fun _ => k⟩ stash =
        (.ok (b :: cs), ⟨fun _ => 0, fun _ => k⟩, stash) := by
      rw [iterate, Prog.exec_world, ← hk]
    rw [InMemoryStashAdapter.getAll, Prog.exec_bind_ok hread, Prog.exec_bind_ok hiter]
    exact exec_shuffle_zero rfl _ _
  · rw [hperm.mem_iff, UnorderedMap.mem_toList]

/-! ## After the order is chosen -/

section Written

variable {A : AbsStorageAdapter} {crypto : Crypto} {mapCapacity stashCapacity height batchSize : ℕ}

/-- the leaf that the array has for a block -/
def leafOf {mapCapacity : ℕ} (map : PositionArray mapCapacity) (id : ℕ) : ℕ := map[id]?.getD 0

/-- `writePath` with the stash in a given order -/
def writeStash {β μ : Type} (O : Oram β μ) (leaf : ℕ) (cs : List Block) : Run (OramState β μ) Unit := do
  let e ← O.writeLevels leaf O.height ⟨cs, [], []⟩
  Oram.setCache e.requests
  e.toDelete.forM fun removed => Oram.onStash (InMemoryStashAdapter.remove (ofInt removed))

/-- the state reached from s with the stash in the order cs -/
structure Written {β : Type} (O : Oram β (PositionArray mapCapacity)) (leaf : ℕ) (cs : List Block)
    (s s' : OramState β (PositionArray mapCapacity)) : Prop where
  stash : ∀ k, s'.stash.lookup k =
    if k ∈ (evicted (O.fits (leafOf s.map) leaf) O.Z O.height cs).map (fun b => ofInt (toInt b.1)) then none
    else s.stash.lookup k
  bucket : ∀ x ∈ (evict (O.fits (leafOf s.map) leaf) O.Z O.height cs).1,
    ∃ bucket, s'.cache.lookup (O.bucketForLevelLeaf x.1 leaf) = some bucket ∧ O.IsBucket x.2 bucket

/-- the same on a tree of any height: the buckets are assigned to the cache in turn -/
structure Assigned {β : Type} (O : Oram β (PositionArray mapCapacity)) (leaf : ℕ) (cs : List Block)
    (s s' : OramState β (PositionArray mapCapacity)) (requests : List (ℕ × Bucket)) : Prop where
  stash : ∀ k, s'.stash.lookup k =
    if k ∈ (evicted (O.fits (leafOf s.map) leaf) O.Z O.height cs).map (fun b => ofInt (toInt b.1)) then none
    else s.stash.lookup k
  buckets : List.Forall₂ (fun x r => r.1 = O.bucketForLevelLeaf x.1 leaf ∧ O.IsBucket x.2 r.2)
    (evict (O.fits (leafOf s.map) leaf) O.Z O.height cs).1 requests
  cache : s'.cache = s.cache.assignAll requests

/-- the locations written are the nodes of the path, from the leaf, and no two are the same -/
theorem Assigned.fst {β : Type} {O : Oram β (PositionArray mapCapacity)} {leaf : ℕ} {cs : List Block}
    {s s' : OramState β (PositionArray mapCapacity)} {buckets : List (ℕ × Bucket)} (h : Assigned O leaf cs s s' buckets)
    (hh : O.height ≤ 31) (hf : leaf < 2 ^ (O.height - 1)) :
    buckets.map Prod.fst = (path O.height leaf).reverse ∧ (buckets.map Prod.fst).Nodup := by
  have hfst := requests_fst O hh hf h.buckets
  refine ⟨hfst, ?_⟩
  rw [hfst, List.nodup_reverse]
  exact path_nodup hf

theorem Assigned.written {β : Type} {O : Oram β (PositionArray mapCapacity)} {leaf : ℕ} {cs : List Block}
    {s s' : OramState β (PositionArray mapCapacity)} {buckets : List (ℕ × Bucket)} (h : Assigned O leaf cs s s' buckets)
    (hh : O.height ≤ 31) (hf : leaf < 2 ^ (O.height - 1)) : Written O leaf cs s s' where
  stash := h.stash
  bucket x hx := by
    obtain ⟨r, hr, hr1, hr2⟩ := exists_of_mem_right h.buckets.flip hx
    refine ⟨r.2, ?_, hr2⟩
    rw [h.cache, ← hr1]
    exact UnorderedMap.lookup_assignAll_of_mem _ _ (h.fst hh hf).2 hr

theorem exec_map_get {capacity i : ℕ} (hi : i < capacity) (w : World) (map : PositionArray capacity) :
    Prog.exec ((inMemoryPositionMap capacity).get i) w map = (.ok (leafOf map i), w, map) := by
  rw [exec_arrayGet, if_neg (not_le.2 hi)]
  rfl

/-- removing from the stash, one after the other, leaves the cache alone -/
theorem removeAll_triple {β μ : Type} (toDelete : List ℤ) (s : OramState β μ) :
    Triple (fun s' => s' = s) (toDelete.forM fun removed => Oram.onStash (InMemoryStashAdapter.remove (ofInt removed)))
      (fun _ s' => s'.cache = s.cache ∧ ∀ k, s'.stash.lookup k = if k ∈ toDelete.map ofInt then none else s.stash.lookup k)
      (fun _ _ => False) := by
  refine ((Triple.forM (fun rest s' => ∃ done, done ++ rest = toDelete ∧ s'.cache = s.cache ∧
    ∀ k, s'.stash.lookup k = if k ∈ done.map ofInt then none else s.stash.lookup k) ?_).pre ?_).post ?_
  · rintro removed rest - w s' ⟨done, hdone, hcache, hstash⟩
    refine ⟨done ++ [removed], by simpa using hdone, hcache, fun k => ?_⟩
    change (AList.erase (ofInt removed) s'.stash).lookup k = _
    rw [UnorderedMap.lookup_erase_eq, hstash k]
    by_cases h1 : k = ofInt removed <;> by_cases h2 : k ∈ done.map ofInt <;> simp_all
  · rintro s' rfl
    exact ⟨[], rfl, rfl, fun k => by simp⟩
  · rintro _ s' ⟨done, hdone, h⟩
    rw [List.append_nil] at hdone
    exact hdone ▸ h

theorem writeStash_triple {β : Type} {O : Oram β (PositionArray mapCapacity)}
    (hmap : O.map = inMemoryPositionMap mapCapacity) (hZ : 0 < O.Z) (leaf : ℕ) {cs : List Block}
    (hcs : ∀ b ∈ cs, b.1 < mapCapacity) (s : OramState β (PositionArray mapCapacity)) :
    Triple (fun s' => s' = s) (writeStash O leaf cs) (fun _ s' => ∃ requests, Assigned O leaf cs s s' requests)
      (fun _ _ => False) := by
  obtain ⟨v, hv⟩ : ∃ v : View, v.pos = leafOf s.map :=
    ⟨⟨leafOf s.map, fun _ => none, fun _ => [], fun _ => false, [], []⟩, rfl⟩
  have hget : ∀ (v : View) (i : ℕ), i < mapCapacity →
      Refines (fun (v : View) s' => s' = s ∧ v.pos = leafOf s.map) v (Oram.onMap (O.map.get i))
        (fun r v' => r = v.pos i ∧ v' = { v with mapCalls := v.mapCalls ++ [.get i (v.pos i)] })
        (fun _ _ => False) := by
    rintro v i hi w s' ⟨rfl, hv⟩
    have hleaf : Prog.exec (O.map.get i) w ((OramState.mapLens _ _).get s') = (.ok (leafOf s'.map i), w, s'.map) :=
      hmap ▸ exec_map_get hi w s'.map
    have hexec : Prog.exec (Oram.onMap (O.map.get i)) w s' = (.ok (leafOf s'.map i), w, s') := by
      rw [Oram.onMap, Prog.exec_zoom, hleaf]
      rfl
    rw [hexec]
    exact ⟨_, ⟨by rw [hv], rfl⟩, rfl, hv⟩
  have hlevels : Refines _ v (O.writeLevels leaf O.height ⟨cs, [], []⟩) _ _ :=
    writeLevels_refines O hget hZ O.height ⟨cs, [], []⟩ hcs
  apply Triple.bind (hlevels.pre fun s' h => ⟨h, hv⟩)
  intro e
  apply Triple.exists_pre
  intro v'
  refine Triple.of_pure fun ⟨⟨_, hdelete, buckets, hreq, hbuckets⟩, _⟩ => ?_
  simp only [List.nil_append, hv] at hdelete hreq hbuckets
  rintro w s' ⟨rfl, -⟩
  have hset : Prog.exec (Oram.setCache e.requests) w s' =
      (.ok (), w, { s' with cache := s'.cache.assignAll e.requests }) := rfl
  rw [Prog.exec_bind_ok hset]
  refine ((removeAll_triple e.toDelete _).post fun _ s₂ h => ⟨buckets, fun k => ?_, hbuckets, ?_⟩) w _ rfl
  · simp only [h.2, hdelete, List.map_map, Function.comp_def]
  · rw [h.1, hreq]

/-! ## The result -/

/-- a block that was written to the path fits there -/
theorem exists_fits {β : Type} {O : Oram β (PositionArray mapCapacity)} {leaf : ℕ} {pos : ℕ → ℕ} {cs : List Block}
    {b : Block} (hb : b ∈ evicted (O.fits pos leaf) O.Z O.height cs) :
    ∃ level < O.height, O.canInclude (pos b.1) leaf level = true := by
  obtain ⟨x, hx, hbx⟩ := List.mem_flatMap.1 hb
  have hfits := evict_fits _ _ hx
  exact ⟨x.1, hfits.1, hfits.2.2 b hbx⟩

theorem Written.placed {β : Type} {O : Oram β (PositionArray mapCapacity)} {leaf : ℕ} {cs : List Block}
    {s s' : OramState β (PositionArray mapCapacity)} (h : Written O leaf cs s s') {b : Block}
    (hb : b ∈ evicted (O.fits (leafOf s.map) leaf) O.Z O.height cs) : Placed O leaf s' b := by
  obtain ⟨x, hx, hbx⟩ := List.mem_flatMap.1 hb
  obtain ⟨bucket, hlookup, dummies, hbucket, -, -⟩ := h.bucket x hx
  refine ⟨x.1, (evict_fits _ _ hx).1, bucket, hlookup, ?_⟩
  rw [hbucket]
  exact List.mem_append_left _ (List.mem_reverse.2 hbx)

theorem Written.evicted_of_placed {β : Type} {O : Oram β (PositionArray mapCapacity)} {leaf : ℕ} {cs : List Block}
    {s s' : OramState β (PositionArray mapCapacity)} (h : Written O leaf cs s s') {b : Block} (hb : Placed O leaf s' b)
    (hid : b.1 ≠ ulongMax) : b ∈ evicted (O.fits (leafOf s.map) leaf) O.Z O.height cs := by
  obtain ⟨level, hlevel, bucket, hlookup, hm⟩ := hb
  have hmem : level ∈ (evict (O.fits (leafOf s.map) leaf) O.Z O.height cs).1.map Prod.fst := by
    rw [evict_levels, List.mem_reverse]
    exact List.mem_range.2 hlevel
  obtain ⟨x, hx, rfl⟩ := List.mem_map.1 hmem
  obtain ⟨bucket', hlookup', dummies, hbucket, -, hdummies⟩ := h.bucket x hx
  rw [hlookup] at hlookup'
  cases hlookup'
  rw [hbucket, List.mem_append, List.mem_reverse] at hm
  rcases hm with hm | hm
  · exact List.mem_flatMap.2 ⟨x, hx, hm⟩
  · exact absurd (hdummies b hm).1 hid

/-- if every ID that may be placed is narrow, the stash is exact -/
theorem Written.stashExact {β : Type} {O : Oram β (PositionArray mapCapacity)} {leaf : ℕ} {cs : List Block}
    {s s' : OramState β (PositionArray mapCapacity)} (h : Written O leaf cs s s')
    (hcs : LawfulOram.Lists cs fun k => s.stash.lookup k) (hids : ∀ id ∈ s.stash, id < 2 ^ 64)
    (hnarrow : ∀ id ∈ s.stash, (∃ level < O.height, O.canInclude (leafOf s.map id) leaf level = true) → Narrow id) :
    StashExact O leaf s s' := by
  have hback : ∀ b ∈ evicted (O.fits (leafOf s.map) leaf) O.Z O.height cs,
      s.stash.lookup b.1 = some b.2 ∧ ofInt (toInt b.1) = b.1 := by
    intro b hb
    have hlookup := (hcs.2 b.1 b.2).1 ((evict_perm _ _ _ _).subset (List.mem_append_left _ hb))
    have hm : b.1 ∈ s.stash := UnorderedMap.mem_iff_lookup.2 ⟨b.2, hlookup⟩
    exact ⟨hlookup, (ofInt_toInt_iff (hids b.1 hm)).2 (hnarrow b.1 hm (exists_fits hb))⟩
  refine ⟨fun id d hid => ?_, fun id d hid hnone => ?_, fun id d hid hne hplaced => ?_⟩
  · rw [h.stash] at hid
    split_ifs at hid
    exact hid
  · rw [h.stash] at hnone
    split_ifs at hnone with hm
    · obtain ⟨b, hb, hbid⟩ := List.mem_map.1 hm
      obtain ⟨hlookup, hnarrow⟩ := hback b hb
      rw [hnarrow] at hbid
      subst hbid
      rw [hid] at hlookup
      cases hlookup
      exact h.placed hb
    · rw [hid] at hnone
      cases hnone
  · have hev := h.evicted_of_placed hplaced hne
    have hm := List.mem_map_of_mem (f := fun b : Block => ofInt (toInt b.1)) hev
    simp only [(hback _ hev).2] at hm
    rw [h.stash]
    exact if_pos hm

/-- a block with a wide ID that was placed stays in the stash -/
theorem Written.stays {β : Type} {O : Oram β (PositionArray mapCapacity)} {leaf : ℕ} {cs : List Block}
    {s s' : OramState β (PositionArray mapCapacity)} (h : Written O leaf cs s s') {id : ℕ} (hid : ¬ Narrow id) :
    s'.stash.lookup id = s.stash.lookup id := by
  rw [h.stash]
  refine if_neg fun hm => hid ?_
  obtain ⟨b, -, rfl⟩ := List.mem_map.1 hm
  exact ofInt_toInt_range b.1

/-- what the eviction does to a stash whose order is chosen -/
theorem writePath_exec {β : Type} {O : Oram β (PositionArray mapCapacity)}
    (hmap : O.map = inMemoryPositionMap mapCapacity) (hZ : 0 < O.Z) (leaf : ℕ) {cs : List Block}
    (hcs : ∀ b ∈ cs, b.1 < mapCapacity) {s : OramState β (PositionArray mapCapacity)} {w w₁ : World}
    (horder : Prog.exec InMemoryStashAdapter.getAll w s.stash = (.ok cs, w₁, s.stash)) :
    ∃ w' s' requests, (O.writePath leaf).exec w s = (.ok (), w', s') ∧ Assigned O leaf cs s s' requests := by
  have hwrite := writeStash_triple hmap hZ leaf hcs s
  have hfirst : Prog.exec (Oram.onStash InMemoryStashAdapter.getAll) w s = (.ok cs, w₁, s) := by
    have hzoom : Prog.exec InMemoryStashAdapter.getAll w ((OramState.stashLens _ _).get s) = (.ok cs, w₁, s.stash) := horder
    rw [Oram.onStash, Prog.exec_zoom, hzoom]
    rfl
  have hpath : (O.writePath leaf).exec w s = (writeStash O leaf cs).exec w₁ s := by
    change (Oram.onStash InMemoryStashAdapter.getAll >>= writeStash O leaf).exec w s = _
    exact Prog.exec_bind_ok hfirst
  have hout := hwrite w₁ s rfl
  rw [← hpath] at hout
  rcases hr : (O.writePath leaf).exec w s with ⟨e | ⟨⟩, w', s'⟩
  · rw [hr] at hout
    exact hout.elim
  · rw [hr] at hout
    obtain ⟨requests, h⟩ := hout
    exact ⟨w', s', requests, rfl, h⟩

/-- the order of the stash, and what the eviction makes of it -/
theorem exists_order {β : Type} {O : Oram β (PositionArray mapCapacity)}
    (hmap : O.map = inMemoryPositionMap mapCapacity) (hZ : 0 < O.Z) (leaf : ℕ)
    {s : OramState β (PositionArray mapCapacity)} (hids : ∀ id ∈ s.stash, id < mapCapacity) (w : World) :
    ∃ cs w' s' requests, LawfulOram.Lists cs (fun k => s.stash.lookup k) ∧
      (O.writePath leaf).exec w s = (.ok (), w', s') ∧ Assigned O leaf cs s s' requests := by
  have hgetAll := LawfulOram.getAll_triple (E := fun _ _ => False) s.stash w s.stash rfl
  rcases horder : InMemoryStashAdapter.getAll.exec w s.stash with ⟨e | cs, w₁, st⟩
  · rw [horder] at hgetAll
    exact hgetAll.elim
  · rw [horder] at hgetAll
    obtain ⟨hlists, rfl⟩ := hgetAll
    have hcs : ∀ b ∈ cs, b.1 < mapCapacity := fun b hb =>
      hids b.1 (UnorderedMap.mem_iff_lookup.2 ⟨b.2, (hlists.2 b.1 b.2).1 hb⟩)
    obtain ⟨w', s', requests, hrun, h⟩ := writePath_exec hmap hZ leaf hcs horder
    exact ⟨cs, w', s', requests, hlists, hrun, h⟩

/-- for every order of the stash, the eviction returns and the stash is exact -/
def WritePathExact {β μ : Type} (O : Oram β μ) (leaf : ℕ) (s : OramState β μ) : Prop :=
  ∀ w, ∃ w' s', (O.writePath leaf).exec w s = (.ok (), w', s') ∧ StashExact O leaf s s'

/-- a wide ID that may be placed is placed and stays in the stash, if it comes first -/
theorem not_exact_of_wide (hh : height ≤ 31) {leaf : ℕ} (hf : leaf < 2 ^ (height - 1))
    {s : OramState (BlockArray A.capacity A.blockSize) (PositionArray mapCapacity)}
    (hids : ∀ id ∈ s.stash, id < mapCapacity) {id level : ℕ} (hid : id ∈ s.stash) (hwide : ¬ Narrow id)
    (hlevel : level < height)
    (hfit : (inMemoryOram A crypto mapCapacity stashCapacity height batchSize).canInclude (leafOf s.map id) leaf level = true) :
    ¬ WritePathExact (inMemoryOram A crypto mapCapacity stashCapacity height batchSize) leaf s := by
  set O := inMemoryOram A crypto mapCapacity stashCapacity height batchSize with hO
  intro hexact
  obtain ⟨d, hd⟩ := UnorderedMap.mem_iff_lookup.1 hid
  obtain ⟨w, w₁, cs, horder, hlists⟩ := exists_getAll_head (UnorderedMap.mem_toList.2 hd)
  have hcs : ∀ b ∈ (id, d) :: cs, b.1 < mapCapacity := fun b hb =>
    hids b.1 (UnorderedMap.mem_iff_lookup.2 ⟨b.2, (hlists.2 b.1 b.2).1 hb⟩)
  obtain ⟨w', s', requests, hrun, h⟩ :=
    writePath_exec (O := O) rfl (Nat.pos_of_ne_zero A.Z_ne_zero) leaf hcs horder
  have hwritten := h.written hh hf
  obtain ⟨w'', s'', hrun', hstash⟩ := hexact w
  rw [hrun] at hrun'
  cases hrun'
  have hplaced := hwritten.placed (mem_evicted_head _ _ (Nat.pos_of_ne_zero A.Z_ne_zero) hlevel hfit)
  have hstays := hwritten.stays hwide
  have hne : id ≠ ulongMax := by
    rintro rfl
    exact hwide (Or.inr (by norm_num [ulongMax]))
  rw [hstash.placed_removed id d hd hne hplaced, hd] at hstays
  cases hstays

/-- **When the stash is exact.** For every position map, stash and leaf, the eviction leaves in the stash just what it
did not place, for every order of the stash, if and only if the IDs that it may place are exact as `int`s. -/
theorem writePath_exact_iff (hh : height ≤ 31) (hmap : 2 ^ height * A.Z ≤ mapCapacity) {leaf : ℕ}
    (hf : leaf < 2 ^ (height - 1)) (s : OramState (BlockArray A.capacity A.blockSize) (PositionArray mapCapacity))
    (hids : ∀ id ∈ s.stash, id < 2 ^ height * A.Z ∧ id < 2 ^ 64) :
    WritePathExact (inMemoryOram A crypto mapCapacity stashCapacity height batchSize) leaf s ↔
      ∀ id ∈ s.stash, (∃ level < height, (inMemoryOram A crypto mapCapacity stashCapacity height batchSize).canInclude
        (leafOf s.map id) leaf level = true) → Narrow id := by
  set O := inMemoryOram A crypto mapCapacity stashCapacity height batchSize with hO
  have hlt : ∀ id ∈ s.stash, id < mapCapacity := fun id hid => (hids id hid).1.trans_le hmap
  constructor
  · intro hexact id hid hfits
    obtain ⟨level, hlevel, hfit⟩ := hfits
    by_contra hwide
    exact not_exact_of_wide hh hf hlt hid hwide hlevel hfit hexact
  · intro hnarrow w
    obtain ⟨cs, w', s', requests, hlists, hrun, h⟩ :=
      exists_order (O := O) rfl (Nat.pos_of_ne_zero A.Z_ne_zero) leaf hlt w
    exact ⟨w', s', hrun, (h.written hh hf).stashExact hlists (fun id hid => (hids id hid).2) hnarrow⟩

end Written

/-- three blocks in the stash of the bushy ORAM, with three leaves -/
def bushyState : OramState (BlockArray bushyStorage.capacity bushyStorage.blockSize) (PositionArray 16) :=
  { zeroState bushyStorage 16 with
    map := Vector.ofFn fun i => i.1 % 4
    stash := AList.insert 1 [7] (AList.insert 6 [8] (AList.singleton 8 [9])) }

theorem bushyState_ids : ∀ id ∈ bushyState.stash,
    id < 16 ∧ leafOf bushyState.map id < 2 ^ (3 - 1) := by
  change ∀ id ∈ bushyState.stash.keys, _
  decide +kernel

theorem writePath_exact_iff_bushy : WritePathExact (inMemoryOram bushyStorage plainCrypto 16 6 3 4) 2 bushyState := by
  refine (writePath_exact_iff (by decide) (by decide) (by decide) _ fun id hid => ?_).2 fun id hid _ => ?_
  · have hlt := (bushyState_ids id hid).1
    exact ⟨hlt, hlt.trans (by norm_num)⟩
  · exact Or.inl ((bushyState_ids id hid).1.trans (by norm_num))

/-- 2^31 buckets of two blocks -/
def wideStorage : AbsStorageAdapter :=
  ⟨List.replicate 32 0, 2, 0, 2 ^ 31, 32, zeroKey_length, two_blocks_32, whole_blocks_32, two_slots⟩

/-- the block 2^31 in the stash, and every block mapped to leaf 0 -/
def wideState : OramState (BlockArray wideStorage.capacity wideStorage.blockSize) (PositionArray (2 ^ 32)) :=
  { zeroState wideStorage (2 ^ 32) with stash := AList.singleton (2 ^ 31) [7] }

/-- **A block ID that is too wide.** The ID 2^31 is one of an ORAM of height 31 with two blocks in a bucket. As an `int` it
is another number, and the block stays in the stash although it was placed. -/
theorem writePath_inexact_wide :
    (∀ id ∈ wideState.stash, id < 2 ^ 31 * wideStorage.Z) ∧
      ¬ WritePathExact (inMemoryOram wideStorage plainCrypto (2 ^ 32) 6 31 4) 0 wideState := by
  have hid : ∀ {id}, id ∈ wideState.stash ↔ id = 2 ^ 31 := UnorderedMap.mem_singleton
  have hleaf : leafOf wideState.map (2 ^ 31) = 0 := by
    rw [leafOf, wideState, zeroState, Vector.getElem?_replicate]
    simp
  refine ⟨fun id h => ?_, not_exact_of_wide le_rfl (by norm_num) (fun id h => ?_) (hid.2 rfl) ?_ (show 0 < 31 by norm_num) ?_⟩
  · rw [hid.1 h]
    norm_num [wideStorage]
  · rw [hid.1 h]
    norm_num
  · norm_num [Narrow]
  · rw [hleaf]
    simp [Oram.canInclude]

end PathOram
