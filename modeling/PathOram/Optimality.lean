/-
How good the eviction is.

A placement puts blocks of the stash into buckets of a path, each into a bucket on its own path and Z into a bucket at
most, and leaves the others. It is stated of the tree, whose buckets on the path to a leaf are `path height leaf`, and
says nothing of levels, orders or the way the code goes.

- `writePath_best_iff`: **the eviction is the best placement if and only if the height is at most 31.** Then the number
  of blocks it leaves is the least that any placement leaves, and so the same for every order of the stash, and no block
  is lost or doubled.
- `writePath_loses`: with a height of 33 two levels of a path are one bucket, and a block disappears.

The proof is that of `Lib.Greedy`: the blocks that fit on a level of the path fit on the levels above it.
-/
import PathOram.BlockIds

namespace PathOram

open Lib

variable {β : Type} {mapCapacity : ℕ}

/-! ## The property -/

/-- blocks of the stash placed in buckets of the path to a leaf; a block may have no place -/
structure Placement (O : Oram β (PositionArray mapCapacity)) (leaf : ℕ) (s : OramState β (PositionArray mapCapacity))
    (location : ℕ → Option ℕ) : Prop where
  on_path : ∀ id ∈ s.stash, ∀ ℓ, location id = some ℓ → ℓ ∈ path O.height leaf ∧ ℓ ∈ path O.height (leafOf s.map id)
  room : ∀ ℓ, s.stash.keys.countP (fun id => location id = some ℓ) ≤ O.Z

/-- the numbers of blocks that placements leave -/
def leftovers (O : Oram β (PositionArray mapCapacity)) (leaf : ℕ) (s : OramState β (PositionArray mapCapacity)) : Set ℕ :=
  {n | ∃ location, Placement O leaf s location ∧ s.stash.keys.countP (fun id => location id = none) = n}

/-- the blocks in the cached buckets of a path. A record with the ID of an empty block is a dummy. -/
def cachedBlocks (O : Oram β (PositionArray mapCapacity)) (leaf : ℕ) (s : OramState β (PositionArray mapCapacity)) :
    List Block :=
  ((path O.height leaf).flatMap fun ℓ => (s.cache.lookup ℓ).getD []).filter fun b => b.1 ≠ ulongMax

/-- the buckets of the path to a leaf are written with blocks of the stash, and nothing else happens to either -/
structure WellPlaced (O : Oram β (PositionArray mapCapacity)) (leaf : ℕ)
    (s s' : OramState β (PositionArray mapCapacity)) : Prop where
  full : ∀ ℓ ∈ path O.height leaf, ∃ bucket, s'.cache.lookup ℓ = some bucket ∧ bucket.length = O.Z
  others : ∀ ℓ, ℓ ∉ path O.height leaf → s'.cache.lookup ℓ = s.cache.lookup ℓ
  on_path : ∀ ℓ ∈ path O.height leaf, ∀ b ∈ (s'.cache.lookup ℓ).getD [], b.1 ≠ ulongMax →
    ℓ ∈ path O.height (leafOf s.map b.1)
  conserved : (cachedBlocks O leaf s' ++ s'.stash.toList).Perm s.stash.toList

/-- whatever is cached and for every order of the stash, the eviction places blocks well and leaves as few as possible -/
def WritePathBest (O : Oram β (PositionArray mapCapacity)) (leaf : ℕ) (s : OramState β (PositionArray mapCapacity)) : Prop :=
  ∃ left, IsLeast (leftovers O leaf s) left ∧ ∀ cache w, ∃ w' s',
    (O.writePath leaf).exec w { s with cache := cache } = (.ok (), w', s') ∧
      WellPlaced O leaf { s with cache := cache } s' ∧ s'.stash.size = left

/-! ## The result -/

section Levels

variable {O : Oram β (PositionArray mapCapacity)} {leaf : ℕ} {s s' : OramState β (PositionArray mapCapacity)}
  {cs : List Block}

theorem countP_keys (hcs : LawfulOram.Lists cs fun k => s.stash.lookup k) (p : ℕ → Bool) :
    s.stash.keys.countP p = cs.countP fun b => p b.1 := by
  have hperm : cs.Perm s.stash.toList := (List.perm_ext_iff_of_nodup hcs.1.of_map s.stash.nodup_keys.of_map).2
    fun b => (hcs.2 b.1 b.2).trans UnorderedMap.mem_toList.symm
  rw [← UnorderedMap.toList_keys, ← (hperm.map Prod.fst).countP_eq, List.countP_map]
  rfl

/-- a block fits on a level if the bucket of that level is on its path -/
theorem fits_iff (hh : O.height ≤ 31) (hf : leaf < 2 ^ (O.height - 1)) {pos : ℕ → ℕ} {b : Block}
    (hb : pos b.1 < 2 ^ (O.height - 1)) {level : ℕ} (hl : level < O.height) :
    O.fits pos leaf level b = true ↔ node O.height level leaf ∈ path O.height (pos b.1) := by
  rw [Oram.fits, Oram.canInclude, beq_iff_eq, O.bucketForLevelLeaf_eq_node hh hl hf, O.bucketForLevelLeaf_eq_node hh hl hb]
  refine ⟨fun h => mem_path.2 ⟨level, hl, h⟩, fun h => node_of_mem_path hl hf hb h⟩

theorem nested_fits (hh : O.height ≤ 31) (hf : leaf < 2 ^ (O.height - 1)) {pos : ℕ → ℕ}
    (hcs : ∀ b ∈ cs, pos b.1 < 2 ^ (O.height - 1)) : Nested (O.fits pos leaf) O.height cs := by
  intro b hb level level' hle hl hfit
  have hl' : level' < O.height := hle.trans_lt hl
  rw [fits_iff hh hf (hcs b hb) hl] at hfit
  rw [fits_iff hh hf (hcs b hb) hl', mem_path]
  exact ⟨level', hl', node_eq_of_le hle hl (node_of_mem_path hl hf (hcs b hb) hfit)⟩

/-- placements in the tree are placements on the levels of the path -/
theorem leftovers_eq (hh : O.height ≤ 31) (hf : leaf < 2 ^ (O.height - 1))
    (hcs : LawfulOram.Lists cs fun k => s.stash.lookup k) (hpos : ∀ b ∈ cs, leafOf s.map b.1 < 2 ^ (O.height - 1)) :
    leftovers O leaf s = {m | ∃ place, Legal (O.fits (leafOf s.map) leaf) O.Z O.height cs place ∧
      cs.countP (fun b => place b = none) = m} := by
  have hstash : ∀ b ∈ cs, s.stash.lookup b.1 = some b.2 := fun b hb => (hcs.2 b.1 b.2).1 hb
  ext m
  constructor
  · rintro ⟨location, hplace, rfl⟩
    have hnode : ∀ b ∈ cs, ∀ level, (location b.1).map Nat.log2 = some level →
        level < O.height ∧ location b.1 = some (node O.height level leaf) ∧
          node O.height level leaf ∈ path O.height (leafOf s.map b.1) := by
      intro b hb level hlevel
      obtain ⟨ℓ, hℓ, rfl⟩ := Option.map_eq_some_iff.1 hlevel
      obtain ⟨hon, hown⟩ := hplace.on_path b.1 (UnorderedMap.mem_iff_lookup.2 ⟨b.2, hstash b hb⟩) ℓ hℓ
      obtain ⟨level, hl, rfl⟩ := mem_path.1 hon
      rw [node_log2 hl hf]
      exact ⟨hl, hℓ, hown⟩
    refine ⟨fun b => (location b.1).map Nat.log2, ⟨fun b hb level hlevel => ?_, fun level => ?_⟩, ?_⟩
    · obtain ⟨hl, -, hown⟩ := hnode b hb level hlevel
      exact ⟨hl, (fits_iff hh hf (hpos b hb) hl).2 hown⟩
    · refine le_trans ?_ (hplace.room (node O.height level leaf))
      rw [countP_keys hcs]
      exact List.countP_mono_left fun b hb h => decide_eq_true (hnode b hb level (of_decide_eq_true h)).2.1
    · rw [countP_keys hcs]
      exact List.countP_congr fun b _ => by simp
  · rintro ⟨place, hlegal, rfl⟩
    set location : ℕ → Option ℕ := fun id =>
      (s.stash.lookup id).bind fun d => (place (id, d)).map fun level => node O.height level leaf with hlocation
    have hloc : ∀ b ∈ cs, location b.1 = (place b).map fun level => node O.height level leaf := fun b hb => by
      rw [hlocation]
      simp only [hstash b hb, Option.bind_some]
    refine ⟨location, ⟨fun id hid ℓ hℓ => ?_, fun ℓ => ?_⟩, ?_⟩
    · obtain ⟨d, hd⟩ := UnorderedMap.mem_iff_lookup.1 hid
      have hb : (id, d) ∈ cs := (hcs.2 id d).2 hd
      rw [hloc (id, d) hb] at hℓ
      obtain ⟨level, hlevel, rfl⟩ := Option.map_eq_some_iff.1 hℓ
      obtain ⟨hl, hfit⟩ := hlegal.fits (id, d) hb level hlevel
      exact ⟨mem_path.2 ⟨level, hl, rfl⟩, (fits_iff hh hf (hpos _ hb) hl).1 hfit⟩
    · rw [countP_keys hcs]
      refine le_trans (List.countP_mono_left fun b hb h => ?_) (hlegal.room ℓ.log2)
      have hb' := of_decide_eq_true h
      rw [hloc b hb] at hb'
      obtain ⟨level, hlevel, rfl⟩ := Option.map_eq_some_iff.1 hb'
      rw [node_log2 (hlegal.fits b hb level hlevel).1 hf, hlevel]
      exact decide_eq_true rfl
    · rw [countP_keys hcs]
      exact List.countP_congr fun b hb => by simp [hloc b hb]

/-- the bucket of a level of the path holds what was selected for it -/
theorem Written.exists_picks (h : Written O leaf cs s s') (hh : O.height ≤ 31) (hf : leaf < 2 ^ (O.height - 1)) {ℓ : ℕ}
    (hℓ : ℓ ∈ path O.height leaf) : ∃ x ∈ (evict (O.fits (leafOf s.map) leaf) O.Z O.height cs).1,
      node O.height x.1 leaf = ℓ ∧ ∃ bucket, s'.cache.lookup ℓ = some bucket ∧ O.IsBucket x.2 bucket := by
  obtain ⟨level, hl, rfl⟩ := mem_path.1 hℓ
  have hmem : level ∈ (evict (O.fits (leafOf s.map) leaf) O.Z O.height cs).1.map Prod.fst := by
    rw [evict_levels, List.mem_reverse]
    exact List.mem_range.2 hl
  obtain ⟨x, hx, rfl⟩ := List.mem_map.1 hmem
  obtain ⟨bucket, hlookup, hbucket⟩ := h.bucket x hx
  rw [O.bucketForLevelLeaf_eq_node hh hl hf] at hlookup
  exact ⟨x, hx, rfl, bucket, hlookup, hbucket⟩

/-- the blocks in the buckets of the path are those selected -/
theorem Written.cachedBlocks_perm (h : Written O leaf cs s s') (hh : O.height ≤ 31) (hf : leaf < 2 ^ (O.height - 1))
    (hcs : ∀ b ∈ cs, b.1 ≠ ulongMax) :
    (cachedBlocks O leaf s').Perm (evicted (O.fits (leafOf s.map) leaf) O.Z O.height cs) := by
  set picks := (evict (O.fits (leafOf s.map) leaf) O.Z O.height cs).1 with hpicks
  have hpath : path O.height leaf = (picks.map fun x => node O.height x.1 leaf).reverse := by
    have hlevels : picks.map (fun x => node O.height x.1 leaf) =
        (picks.map Prod.fst).map fun level => node O.height level leaf := by rw [List.map_map]; rfl
    rw [path, hlevels, hpicks, evict_levels, List.map_reverse, List.reverse_reverse]
  have hbucket : ∀ x ∈ picks, ((s'.cache.lookup (node O.height x.1 leaf)).getD []).filter (fun b => b.1 ≠ ulongMax) =
      x.2.reverse := fun x hx => by
    obtain ⟨bucket, hlookup, hb⟩ := h.bucket x hx
    rw [← O.bucketForLevelLeaf_eq_node hh (evict_fits _ _ hx).1 hf, hlookup, Option.getD_some, hb.filter]
    refine List.filter_eq_self.2 fun b hb => decide_eq_true (hcs b ?_)
    have hev : b ∈ evicted (O.fits (leafOf s.map) leaf) O.Z O.height cs :=
      List.mem_flatMap.2 ⟨x, hx, List.mem_reverse.1 hb⟩
    exact (evict_perm _ _ _ _).subset (List.mem_append_left _ hev)
  have hflat : (picks.map fun x => node O.height x.1 leaf).flatMap (fun ℓ =>
      ((s'.cache.lookup ℓ).getD []).filter fun b => b.1 ≠ ulongMax) = picks.flatMap fun x => x.2.reverse := by
    rw [List.flatMap_map]
    exact List.flatMap_congr hbucket
  rw [cachedBlocks, List.filter_flatMap, hpath]
  refine ((List.reverse_perm _).flatMap_right _).trans ?_
  rw [hflat]
  exact List.Perm.flatMap_left _ fun x _ => List.reverse_perm _

/-- what is left in the stash is what was not selected -/
theorem Assigned.left_perm {requests : List (ℕ × Bucket)} (h : Assigned O leaf cs s s' requests)
    (hcs : LawfulOram.Lists cs fun k => s.stash.lookup k) (hids : ∀ b ∈ cs, b.1 < 2 ^ 31) :
    s'.stash.toList.Perm (evict (O.fits (leafOf s.map) leaf) O.Z O.height cs).2 := by
  have hperm := evict_perm (O.fits (leafOf s.map) leaf) O.Z O.height cs
  set taken := evicted (O.fits (leafOf s.map) leaf) O.Z O.height cs with htaken
  set left := (evict (O.fits (leafOf s.map) leaf) O.Z O.height cs).2 with hleft
  have hnodup : ((taken ++ left).map Prod.fst).Nodup := (hperm.map Prod.fst).nodup_iff.2 hcs.1
  rw [List.map_append, List.nodup_append'] at hnodup
  obtain ⟨-, hnodup, hdisjoint⟩ := hnodup
  have hback : taken.map (fun b => ofInt (toInt b.1)) = taken.map Prod.fst := List.map_congr_left fun b hb =>
    ofInt_toInt (hids b (hperm.subset (List.mem_append_left _ hb)))
  refine (List.perm_ext_iff_of_nodup s'.stash.nodup_keys.of_map hnodup.of_map).2 fun ⟨k, d⟩ => ?_
  have hmem : s.stash.lookup k = some d ↔ (k, d) ∈ taken ∨ (k, d) ∈ left := by
    rw [← hcs.2 k d, ← hperm.mem_iff, List.mem_append]
  rw [UnorderedMap.mem_toList, h.stash, ← htaken, hback]
  split_ifs with hk
  · exact iff_of_false (fun h => by cases h) fun hl => hdisjoint hk (List.mem_map_of_mem hl)
  · rw [hmem]
    exact or_iff_right fun ht => hk (List.mem_map_of_mem ht)

/-- on a tree of height 31 at most, the blocks are placed well -/
theorem Assigned.wellPlaced {requests : List (ℕ × Bucket)} (h : Assigned O leaf cs s s' requests) (hh : O.height ≤ 31)
    (hf : leaf < 2 ^ (O.height - 1)) (hcs : LawfulOram.Lists cs fun k => s.stash.lookup k)
    (hids : ∀ b ∈ cs, b.1 < 2 ^ 31 ∧ leafOf s.map b.1 < 2 ^ (O.height - 1)) : WellPlaced O leaf s s' := by
  have hwritten := h.written hh hf
  have hreal : ∀ b ∈ cs, b.1 ≠ ulongMax := fun b hb => by
    have := (hids b hb).1
    unfold ulongMax
    omega
  refine ⟨fun ℓ hℓ => ?_, fun ℓ hℓ => ?_, fun ℓ hℓ b hb hne => ?_, ?_⟩
  · obtain ⟨x, -, -, bucket, hlookup, hbucket⟩ := hwritten.exists_picks hh hf hℓ
    exact ⟨bucket, hlookup, hbucket.length⟩
  · rw [h.cache]
    refine UnorderedMap.lookup_assignAll_of_notMem _ _ _ fun hm => hℓ ?_
    rw [(h.fst hh hf).1, List.mem_reverse] at hm
    exact hm
  · obtain ⟨x, hx, rfl, bucket, hlookup, hbucket⟩ := hwritten.exists_picks hh hf hℓ
    rw [hlookup, Option.getD_some] at hb
    have hpick : b ∈ x.2.reverse.filter fun x => x.1 ≠ ulongMax :=
      hbucket.filter ▸ List.mem_filter.2 ⟨hb, decide_eq_true hne⟩
    have hbx := List.mem_reverse.1 (List.mem_of_mem_filter hpick)
    have hev : b ∈ evicted (O.fits (leafOf s.map) leaf) O.Z O.height cs := List.mem_flatMap.2 ⟨x, hx, hbx⟩
    have hbcs : b ∈ cs := (evict_perm _ _ _ _).subset (List.mem_append_left _ hev)
    obtain ⟨hl, -, hfits⟩ := evict_fits _ _ hx
    exact (fits_iff hh hf (hids b hbcs).2 hl).1 (hfits b hbx)
  · have hstash : cs.Perm s.stash.toList := (List.perm_ext_iff_of_nodup hcs.1.of_map s.stash.nodup_keys.of_map).2
      fun b => (hcs.2 b.1 b.2).trans UnorderedMap.mem_toList.symm
    exact (((hwritten.cachedBlocks_perm hh hf hreal).append (h.left_perm hcs fun b hb => (hids b hb).1)).trans
      (evict_perm _ _ _ _)).trans hstash

/-- from height 32 on no level of a path is written to the bucket of its leaf -/
theorem bucketForLevelLeaf_ne_leaf (hh : 32 ≤ O.height) (hf : leaf < 2 ^ (O.height - 1)) {level : ℕ}
    (hl : level < O.height) : O.bucketForLevelLeaf level leaf ≠ node O.height (O.height - 1) leaf := by
  have hnode : node O.height (O.height - 1) leaf = leaf + 2 ^ (O.height - 1) := by simp [node]
  rw [hnode, Oram.bucketForLevelLeaf]
  set shift := sub64 (sub64 O.height 1) level % 64 with hshift
  set sum := (leaf + shlOne (O.height - 1)) % 2 ^ 64 with hsum
  have hle : sum / 2 ^ shift ≤ sum := Nat.div_le_self _ _
  rcases le_or_gt 65 O.height with hbig | hbig
  · -- a bucket is a number of 64 bits
    have hpow : 2 ^ 64 ≤ 2 ^ (O.height - 1) := Nat.pow_le_pow_right (by norm_num) (by omega)
    have hlt : sum < 2 ^ 64 := Nat.mod_lt _ (by norm_num)
    omega
  · by_cases hmod : (O.height - 1) % 32 = 31
    · -- the literal is negative
      have hshl : shlOne (O.height - 1) = 2 ^ 64 - 2 ^ 31 := if_pos hmod
      rw [hshl] at hsum
      rcases (show O.height = 32 ∨ O.height = 64 by omega) with h32 | h64
      · rw [h32] at hf hl ⊢
        have hle31 : shift ≤ 31 := by
          rw [hshift, h32, show sub64 32 1 = 31 from rfl, sub64_of_le (by omega) (by norm_num)]
          omega
        have hdiv : sum / 2 ^ 31 ≤ sum / 2 ^ shift :=
          Nat.div_le_div_left (Nat.pow_le_pow_right (by norm_num) hle31) (Nat.two_pow_pos _)
        omega
      · rw [h64] at hf ⊢
        rcases shift.eq_zero_or_pos with hzero | hpos
        · rw [hzero, pow_zero, Nat.div_one]
          omega
        · have hdiv : sum / 2 ^ shift ≤ sum / 2 ^ 1 :=
            Nat.div_le_div_left (Nat.pow_le_pow_right (by norm_num) hpos) (Nat.two_pow_pos _)
          omega
    · -- the count is cut to five bits
      have hshl : shlOne (O.height - 1) = 2 ^ ((O.height - 1) % 32) := if_neg hmod
      have hsmall : 2 ^ ((O.height - 1) % 32) < 2 ^ (O.height - 1) :=
        (Nat.pow_lt_pow_iff_right (by norm_num)).2 (by omega)
      have hmodle : sum ≤ leaf + shlOne (O.height - 1) := Nat.mod_le _ _
      omega

end Levels

/-- on a taller tree the bucket of the leaf would have to be one of those written -/
theorem height_le_of_best {O : Oram β (PositionArray mapCapacity)} (hmap : O.map = inMemoryPositionMap mapCapacity)
    (hZ : 1 ≤ O.Z) {leaf : ℕ} (hf : leaf < 2 ^ (O.height - 1)) {s : OramState β (PositionArray mapCapacity)}
    (hids : ∀ id ∈ s.stash, id < mapCapacity) (hbest : WritePathBest O leaf s) : O.height ≤ 31 := by
  by_contra hh
  obtain ⟨left, -, hbest⟩ := hbest
  obtain ⟨w', s', hrun, hplaced, -⟩ := hbest ∅ zeroWorld
  obtain ⟨cs, w'', s'', requests, -, hrun', h⟩ :=
    exists_order (s := { s with cache := ∅ }) hmap hZ leaf hids zeroWorld
  rw [hrun] at hrun'
  cases hrun'
  obtain ⟨bucket, hlookup, -⟩ := hplaced.full (node O.height (O.height - 1) leaf)
    (mem_path.2 ⟨O.height - 1, by omega, rfl⟩)
  have hmem := UnorderedMap.mem_iff_lookup.2 ⟨bucket, hlookup⟩
  rw [h.cache, UnorderedMap.mem_assignAll] at hmem
  rcases hmem with hmem | hmem
  · exact AList.notMem_empty _ hmem
  · obtain ⟨r, hr, hr1⟩ := List.mem_map.1 hmem
    obtain ⟨x, hx, hx1, -⟩ := exists_of_mem_right h.buckets hr
    exact bucketForLevelLeaf_ne_leaf (by omega) hf (evict_fits _ _ hx).1 (hx1.symm.trans hr1)

/-- **The eviction is the best placement if and only if the height is at most 31**, for every path, position map and stash
whose IDs are exact as `int`s and whose positions are leaves. -/
theorem writePath_best_iff {O : Oram β (PositionArray mapCapacity)} (hmap : O.map = inMemoryPositionMap mapCapacity)
    (hZ : 1 ≤ O.Z) {leaf : ℕ} (hf : leaf < 2 ^ (O.height - 1)) (s : OramState β (PositionArray mapCapacity))
    (hids : ∀ id ∈ s.stash, id < 2 ^ 31 ∧ id < mapCapacity ∧ leafOf s.map id < 2 ^ (O.height - 1)) :
    WritePathBest O leaf s ↔ O.height ≤ 31 := by
  constructor
  · exact height_le_of_best hmap hZ hf fun id hid => (hids id hid).2.1
  · intro hh
    obtain ⟨cs₀, -, -, -, hcs₀, -⟩ := exists_order (s := s) hmap hZ leaf (fun id hid => (hids id hid).2.1) zeroWorld
    have hmem : ∀ {cs : List Block}, LawfulOram.Lists cs (fun k => s.stash.lookup k) → ∀ b ∈ cs,
        b.1 < 2 ^ 31 ∧ leafOf s.map b.1 < 2 ^ (O.height - 1) := fun hcs b hb => by
      have h := hids b.1 (UnorderedMap.mem_iff_lookup.2 ⟨b.2, (hcs.2 b.1 b.2).1 hb⟩)
      exact ⟨h.1, h.2.2⟩
    have hleast : ∀ {cs : List Block}, LawfulOram.Lists cs (fun k => s.stash.lookup k) →
        IsLeast (leftovers O leaf s) (evict (O.fits (leafOf s.map) leaf) O.Z O.height cs).2.length := fun hcs => by
      rw [leftovers_eq hh hf hcs fun b hb => (hmem hcs b hb).2]
      exact evict_isLeast (nested_fits hh hf fun b hb => (hmem hcs b hb).2) hcs.1.of_map
    refine ⟨_, hleast hcs₀, fun cache w => ?_⟩
    obtain ⟨cs, w', s', requests, hcs, hrun, h⟩ :=
      exists_order (s := { s with cache := cache }) hmap hZ leaf (fun id hid => (hids id hid).2.1) w
    refine ⟨w', s', hrun, h.wellPlaced hh hf hcs (hmem hcs), ?_⟩
    rw [← UnorderedMap.length_toList, (h.left_perm hcs fun b hb => (hmem hcs b hb).1).length_eq]
    exact (hleast hcs).unique (hleast hcs₀)

/-- three blocks for the path of leaf 2 -/
theorem writePath_best_iff_bushy : WritePathBest (inMemoryOram bushyStorage plainCrypto 16 6 3 4) 2 bushyState := by
  refine (writePath_best_iff rfl (by decide) (by decide) _ fun id hid => ?_).2 (by decide)
  obtain ⟨hlt, hleaf⟩ := bushyState_ids id hid
  exact ⟨hlt.trans (by norm_num), hlt, hleaf⟩

/-! ## A tree that is too tall -/

/-- 2^33 buckets of one block -/
def tallerStorage : AbsStorageAdapter :=
  ⟨List.replicate 32 0, 1, 0, 2 ^ 33, 32, zeroKey_length, two_blocks_32, whole_blocks_32, Nat.one_ne_zero⟩

/-- two blocks in the stash, and every block mapped to leaf 0 -/
def tallerState : OramState (BlockArray tallerStorage.capacity tallerStorage.blockSize) (PositionArray (2 ^ 33)) :=
  { zeroState tallerStorage (2 ^ 33) with stash := AList.insert 0 [7] (AList.singleton 1 [9]) }

theorem leafOf_tallerState {id : ℕ} (h : id < 2 ^ 33) : leafOf tallerState.map id = 0 := by
  rw [leafOf, tallerState, zeroState, Vector.getElem?_replicate, if_pos h, Option.getD_some]

/-- **A block that disappears.** On a tree of height 33 the literal is 1, so the path to leaf 0 has the bucket 1 on its
last level and the bucket 0 on all others. Block 1 is placed in the bucket 0, which the next level overwrites; it is
deleted from the stash all the same. -/
theorem writePath_loses :
    let O := inMemoryOram tallerStorage plainCrypto (2 ^ 33) 99 33 1
    let out := (O.writePath 0).exec zeroWorld tallerState
    (∀ id ∈ tallerState.stash, id < 2 ^ 31 ∧ id < 2 ^ 33 ∧ leafOf tallerState.map id < 2 ^ 32) ∧
      (out.1 = .ok () ∧ out.2.2.stash.entries = [] ∧
        out.2.2.cache.toList.map (fun e => (e.1, e.2.map Prod.fst)) = [(0, [ulongMax]), (1, [0])]) ∧
      ¬ WritePathBest O 0 tallerState := by
  have hids : ∀ id ∈ tallerState.stash, id < 2 ^ 31 := by
    intro id hid
    rcases (AList.mem_insert _).1 hid with rfl | h
    · norm_num
    · rw [UnorderedMap.mem_singleton.1 h]
      norm_num
  refine ⟨fun id hid => ?_, by decide +kernel, fun h => ?_⟩
  · have hlt := (hids id hid).trans (show 2 ^ 31 < 2 ^ 33 by norm_num)
    rw [leafOf_tallerState hlt]
    exact ⟨hids id hid, hlt, by norm_num⟩
  · have hle := height_le_of_best rfl (by decide) (by decide) (fun id hid => (hids id hid).trans (by norm_num)) h
    exact absurd hle (by decide)

end PathOram
