/-
The eviction: what `writePath` makes of the stash.

The scan with its three vectors is shown to be the greedy selection of `Lib.Greedy`: on each level, from the leaf to the
root, the first Z blocks of the local stash whose paths meet the bucket. `eraseLocal_pickIdx` is the erasure by indices.

- `writeLevels_refines`: the buckets hold what was selected and dummies, the local stash what is left, and every block
  that was looked at has cost one call of the map.
- `writePath_refines`: **the eviction**, from a view to the next (`Evicted`). The IDs to delete pass through `int`s.
-/
import PathOram.CacheSpec
import PathOram.Lib.Greedy

namespace PathOram

open Lib

variable {β μ : Type} (O : Oram β μ)

/-- a block may go to the bucket of a level on the path to a leaf -/
def Oram.fits (pos : ℕ → ℕ) (leaf level : ℕ) (b : Block) : Bool := O.canInclude (pos b.1) leaf level

/-- one call of the map for each block looked at -/
def visitCalls (pos : ℕ → ℕ) (blocks : List Block) : List MapCall := blocks.map fun b => .get b.1 (pos b.1)

/-- a bucket of Z blocks: those selected, the last one first, and dummies -/
def Oram.IsBucket (picks : List Block) (bucket : Bucket) : Prop :=
  ∃ dummies, bucket = picks.reverse ++ dummies ∧ picks.length + dummies.length = O.Z ∧
    ∀ x ∈ dummies, x.1 = ulongMax ∧ x.2.length = O.dataSize

theorem Oram.IsBucket.length {O : Oram β μ} {picks : List Block} {bucket : Bucket} (h : O.IsBucket picks bucket) :
    bucket.length = O.Z := by
  obtain ⟨dummies, rfl, hlen, -⟩ := h
  rw [List.length_append, List.length_reverse, hlen]

/-- the blocks of a bucket, less the dummies, are those selected -/
theorem Oram.IsBucket.filter {O : Oram β μ} {picks : List Block} {bucket : Bucket} (h : O.IsBucket picks bucket) :
    bucket.filter (fun x => x.1 ≠ ulongMax) = picks.reverse.filter (fun x => x.1 ≠ ulongMax) := by
  obtain ⟨dummies, rfl, -, hd⟩ := h
  have hnil : dummies.filter (fun x => x.1 ≠ ulongMax) = [] :=
    List.filter_eq_nil_iff.2 fun x hx => by simp [(hd x hx).1]
  rw [List.filter_append, hnil, List.append_nil]

theorem eraseLocal_pickIdx (p : Block → Bool) (n : ℕ) (l : List Block) :
    Oram.eraseLocal l (pickIdx p n l) = (pick p n l).2 := by
  have hsorted : ((pickIdx p n l).reverse).Pairwise (· ≥ ·) :=
    List.pairwise_reverse.2 ((pickIdx_sorted p n l).imp fun h => Nat.le_of_lt h)
  have hsort : (pickIdx p n l).insertionSort (· ≥ ·) = (pickIdx p n l).reverse :=
    ((List.perm_insertionSort _ _).trans (List.reverse_perm _).symm).eq_of_pairwise'
      (List.pairwise_insertionSort _ _) hsorted
  rw [Oram.eraseLocal, hsort, List.foldl_reverse, foldr_eraseIdx_pickIdx]

theorem fillBucket_triple {P : OramState β μ → Prop} {E : Exception → OramState β μ → Prop} (n : ℕ) (picks : List Block)
    (h : picks.length ≤ n) :
    Triple P (O.fillBucket n picks)
      (fun bucket s => (∃ dummies, bucket = picks.reverse ++ dummies ∧ picks.length + dummies.length = n ∧
        ∀ x ∈ dummies, x.1 = ulongMax ∧ x.2.length = O.dataSize) ∧ P s) E := by
  induction n generalizing picks with
  | zero =>
    have hnil : picks = [] := List.eq_nil_of_length_eq_zero (by omega)
    exact Triple.pure fun s hs => ⟨⟨[], by simp [hnil], by simp [hnil], by simp⟩, hs⟩
  | succ n ih =>
    rw [Oram.fillBucket]
    rcases List.eq_nil_or_concat picks with rfl | ⟨front, b, rfl⟩
    · apply (getRandomBlock_triple O.dataSize).bind
      intro data
      refine (ih [] (Nat.zero_le n)).bind fun rest => Triple.of_pure fun ⟨dummies, hr, hlen, hd⟩ => ?_
      refine Triple.pure fun s hs => ⟨⟨(ulongMax, data.1) :: dummies, by simp [hr], by simp at hlen ⊢; omega, ?_⟩, hs⟩
      intro x hx
      rcases List.mem_cons.1 hx with rfl | hx
      · exact ⟨rfl, data.2⟩
      · exact hd x hx
    · have hlast : (front.concat b).getLast? = some b := by simp
      have hdrop : (front.concat b).dropLast = front := by simp
      rw [hlast, hdrop]
      refine (ih front (by simp at h; omega)).bind fun rest => Triple.of_pure fun ⟨dummies, hr, hlen, hd⟩ => ?_
      exact Triple.pure fun s hs => ⟨⟨dummies, by simp [hr], by simp; omega, hd⟩, hs⟩

/-! ## The scan

The scan only reads the map, so it is verified for any relation of views and states under which reading the map is a
step that records a call. -/

section Scan

variable {R : View → OramState β μ → Prop} {E : Exception → OramState β μ → Prop} {known : ℕ → Prop}
  (hget : ∀ v i, known i → Refines R v (Oram.onMap (O.map.get i))
    (fun r v' => r = v.pos i ∧ v' = { v with mapCalls := v.mapCalls ++ [.get i (v.pos i)] }) E)

include hget

/-- the scan of one level selects greedily -/
theorem scanStash_refines {leaf level : ℕ} {v : View} {l : List Block} (hl : ∀ b ∈ l, known b.1) (i : ℕ) (acc : Oram.Scan)
    {n : ℕ} (hn : acc.toInsert.length + n = O.Z) (hpos : 0 < n) :
    Refines R v (O.scanStash leaf level l i acc)
      (fun r v' => r = ⟨acc.toInsert ++ (pick (O.fits v.pos leaf level) n l).1,
          acc.toDelete ++ (pick (O.fits v.pos leaf level) n l).1.map (fun b => toInt b.1),
          acc.toDeleteLocal ++ (pickIdx (O.fits v.pos leaf level) n l).map (· + i)⟩ ∧
        v' = { v with mapCalls := v.mapCalls ++ visitCalls v.pos (visits (O.fits v.pos leaf level) n l) }) E := by
  obtain ⟨n, rfl⟩ := Nat.exists_eq_succ_of_ne_zero hpos.ne'
  induction l generalizing i acc n v with
  | nil => exact Refines.pure (by simp [pick, pickIdx, visits, visitCalls])
  | cons b l ih =>
    have hb := hl b List.mem_cons_self
    have hl' : ∀ b ∈ l, known b.1 := fun b hm => hl b (List.mem_cons_of_mem _ hm)
    rw [Oram.scanStash]
    apply (hget v b.1 hb).bind
    intro entryLeaf v' hv'
    obtain ⟨rfl, rfl⟩ := hv'
    refine Triple.ite (fun hfit => ?_) (fun hfit => ?_)
    · have hp : O.fits v.pos leaf level b = true := hfit
      simp only [pick, pickIdx, visits, hp, if_true]
      refine Triple.ite (fun hfull => ?_) (fun hmore => ?_)
      · have hzero : n = 0 := by simp at hfull; omega
        subst hzero
        exact Refines.pure (by simp [pick, pickIdx, visits, visitCalls])
      · obtain ⟨n, rfl⟩ := Nat.exists_eq_succ_of_ne_zero (show n ≠ 0 by rintro rfl; simp at hmore; omega)
        refine (ih hl' (i + 1) _ n (by simp; omega) (Nat.succ_pos n)).post fun r v' hv' => ⟨?_, ?_⟩
        · rw [hv'.1]
          simp [Function.comp_def, Nat.add_assoc, Nat.add_comm 1]
        · rw [hv'.2]
          simp [visitCalls]
    · have hp : ¬ O.fits v.pos leaf level b = true := hfit
      simp only [pick, pickIdx, visits, hp]
      refine (ih hl' (i + 1) acc n hn (Nat.succ_pos n)).post fun r v' hv' => ⟨?_, ?_⟩
      · rw [hv'.1]
        simp [Function.comp_def, Nat.add_assoc, Nat.add_comm 1]
      · rw [hv'.2]
        simp [visitCalls]

/-- what the levels below `levels` make of the local variables of `writePath` -/
def LevelsWritten (pos : ℕ → ℕ) (leaf levels : ℕ) (e e' : Oram.Eviction) : Prop :=
  e'.currentStash = (evict (O.fits pos leaf) O.Z levels e.currentStash).2 ∧
    e'.toDelete = e.toDelete ++ (evicted (O.fits pos leaf) O.Z levels e.currentStash).map (fun b => toInt b.1) ∧
    ∃ buckets, e'.requests = e.requests ++ buckets ∧
      List.Forall₂ (fun x r => r.1 = O.bucketForLevelLeaf x.1 leaf ∧ O.IsBucket x.2 r.2)
        (evict (O.fits pos leaf) O.Z levels e.currentStash).1 buckets

/-- the levels, from leaf to root -/
theorem writeLevels_refines (hZ : 0 < O.Z) {leaf : ℕ} {v : View} (levels : ℕ) (e : Oram.Eviction)
    (hl : ∀ b ∈ e.currentStash, known b.1) :
    Refines R v (O.writeLevels leaf levels e)
      (fun e' v' => LevelsWritten O v.pos leaf levels e e' ∧ v' = { v with
        mapCalls := v.mapCalls ++ visitCalls v.pos (evictVisits (O.fits v.pos leaf) O.Z levels e.currentStash) }) E := by
  induction levels generalizing e v with
  | zero => exact Refines.pure ⟨⟨rfl, by simp [evicted, evict], [], by simp, List.Forall₂.nil⟩, by simp [evictVisits, visitCalls]⟩
  | succ level ih =>
    rw [Oram.writeLevels, Oram.writeLevel]
    refine Refines.bind (Q := fun e' v' => (e'.currentStash = (pick (O.fits v.pos leaf level) O.Z e.currentStash).2 ∧
      e'.toDelete = e.toDelete ++ (pick (O.fits v.pos leaf level) O.Z e.currentStash).1.map (fun b => toInt b.1) ∧
      ∃ bucket, e'.requests = e.requests ++ [(O.bucketForLevelLeaf level leaf, bucket)] ∧
        O.IsBucket (pick (O.fits v.pos leaf level) O.Z e.currentStash).1 bucket) ∧ v' = { v with
        mapCalls := v.mapCalls ++ visitCalls v.pos (visits (O.fits v.pos leaf level) O.Z e.currentStash) }) ?_ ?_
    · apply (scanStash_refines O hget hl 0 ⟨[], e.toDelete, []⟩ (by simp) hZ).bind
      intro scan v' hscan
      obtain ⟨hs, hv'⟩ := hscan
      simp only [List.nil_append, Nat.add_zero, List.map_id'] at hs
      refine Triple.bind ((fillBucket_triple O O.Z scan.toInsert (by rw [hs]; exact length_pick_le _ _ _)))
        fun bucket => Triple.of_pure fun hbucket => Triple.pure fun s hs' => ?_
      rw [hs] at hbucket
      refine ⟨v', ⟨⟨?_, by rw [hs], bucket, rfl, hbucket⟩, hv'⟩, hs'⟩
      rw [hs]
      exact eraseLocal_pickIdx _ _ _
    · rintro e₁ v₁ ⟨⟨hstash, hdelete, bucket, hreq, hbucket⟩, rfl⟩
      refine (ih e₁ fun b hb => hl b ?_).post ?_
      · rw [hstash] at hb
        exact (pick_perm _ _ _).subset (List.mem_append_right _ hb)
      · rintro e₂ v₂ ⟨⟨hstash', hdelete', buckets, hreq', hbuckets⟩, rfl⟩
        rw [hstash] at hstash' hdelete' hbuckets
        refine ⟨⟨hstash', ?_, (O.bucketForLevelLeaf level leaf, bucket) :: buckets, ?_, ?_⟩, ?_⟩
        · rw [hdelete', hdelete, evicted_succ]
          simp
        · rw [hreq', hreq]
          simp
        · exact List.Forall₂.cons ⟨rfl, hbucket⟩ hbuckets
        · simp [evictVisits, visitCalls, hstash]

end Scan

/-! ## The step -/

/-- the locations written are the nodes of the path, from the leaf -/
theorem requests_fst (hh : O.height ≤ 31) {leaf : ℕ} (hf : leaf < 2 ^ (O.height - 1)) {pos : ℕ → ℕ} {cs : List Block}
    {buckets : List (ℕ × Bucket)}
    (h : List.Forall₂ (fun x r => r.1 = O.bucketForLevelLeaf x.1 leaf ∧ O.IsBucket x.2 r.2)
      (evict (O.fits pos leaf) O.Z O.height cs).1 buckets) :
    buckets.map Prod.fst = (path O.height leaf).reverse := by
  have hb : List.Forall₂ (fun r x => r.1 = node O.height x.1 leaf) buckets
      (evict (O.fits pos leaf) O.Z O.height cs).1 := by
    refine List.forall₂_iff_get.2 ⟨h.length_eq.symm, fun i h₁ h₂ => ?_⟩
    rw [(h.get h₂ h₁).1, O.bucketForLevelLeaf_eq_node hh (evict_fits _ _ (List.get_mem _ _)).1 hf]
  have hlevels : (path O.height leaf).reverse =
      ((evict (O.fits pos leaf) O.Z O.height cs).1).map fun x => node O.height x.1 leaf := by
    rw [path, ← List.map_reverse, ← evict_levels (O.fits pos leaf) O.Z O.height cs, List.map_map]
    rfl
  rw [hlevels, ← List.forall₂_eq_eq_eq, List.forall₂_map_left_iff, List.forall₂_map_right_iff]
  exact hb

namespace LawfulOram

variable {O} {L : LawfulOram O} {v : View} {F : Exception → View → Prop}

/-- assigning buckets to the cache is writing them in the tree -/
theorem overlay_assignAll_eq (cache : UnorderedMap ℕ Bucket) (store : ℕ → Bucket) (requests : List (ℕ × Bucket)) :
    overlay (cache.assignAll requests) store = writeAll (overlay cache store) requests := by
  induction requests generalizing cache with
  | nil => rfl
  | cons r requests ih =>
    have hone : overlay (cache.insert r.1 r.2) store = Function.update (overlay cache store) r.1 r.2 := by
      funext ℓ
      rw [overlay, UnorderedMap.lookup_insert_eq, Function.update_apply]
      split_ifs <;> rfl
    change overlay (UnorderedMap.assignAll (cache.insert r.1 r.2) requests) store = _
    rw [ih, hone]
    rfl

theorem setCache_refines (requests : List (ℕ × Bucket)) :
    Refines L.Sees v (Oram.setCache requests)
      (fun _ v' => v' = { v with tree := writeAll v.tree requests,
                                 cached := fun ℓ => v.cached ℓ || decide (ℓ ∈ requests.map Prod.fst) }) (L.Fails F) := by
  refine Triple.modify fun s hs => ⟨_, rfl, hs.map, hs.stash, ?_, ?_⟩
  · obtain ⟨store, hstore, htree⟩ := hs.tree
    change v.tree = overlay s.cache store at htree
    exact ⟨store, hstore, htree ▸ (overlay_assignAll_eq s.cache store requests).symm⟩
  · funext ℓ
    change (v.cached ℓ || decide (ℓ ∈ requests.map Prod.fst)) = decide (ℓ ∈ s.cache.assignAll requests)
    rw [hs.cached, ← Bool.decide_or, decide_eq_decide, UnorderedMap.mem_assignAll]

/-- removing blocks from the stash, one after the other -/
theorem removeAll_refines (toDelete : List ℤ) :
    Refines L.Sees v (toDelete.forM fun removed => Oram.onStash (InMemoryStashAdapter.remove (ofInt removed)))
      (fun _ v' => v' = { v with stash := fun k => if k ∈ toDelete.map ofInt then none else v.stash k }) (L.Fails F) := by
  refine (Refines.forM (fun rest v' => ∃ done, done ++ rest = toDelete ∧
    v' = { v with stash := fun k => if k ∈ done.map ofInt then none else v.stash k }) ?_ ⟨[], rfl, by simp⟩).post ?_
  · rintro removed rest v' - ⟨done, hdone, rfl⟩
    refine (stashRemove_refines (ofInt removed)).post ?_
    rintro _ v' rfl
    refine ⟨done ++ [removed], by simpa using hdone, ?_⟩
    congr 1
    funext k
    by_cases h1 : k = ofInt removed <;> by_cases h2 : k ∈ done.map ofInt <;> simp_all
  · rintro _ v' ⟨done, hdone, rfl⟩
    rw [List.append_nil] at hdone
    rw [hdone]

/-- the step of an eviction: cs is the stash in the order in which it was scanned -/
structure Evicted (O : Oram β μ) (v : View) (leaf : ℕ) (cs : List Block) (v' : View) : Prop where
  lists : Lists cs v.stash
  pos : v'.pos = v.pos
  stash : v'.stash = fun k =>
    if k ∈ (evicted (O.fits v.pos leaf) O.Z O.height cs).map (fun b => ofInt (toInt b.1)) then none else v.stash k
  on_path : ∀ x ∈ (evict (O.fits v.pos leaf) O.Z O.height cs).1, O.IsBucket x.2 (v'.tree (node O.height x.1 leaf))
  off_path : ∀ ℓ, ℓ ∉ path O.height leaf → v'.tree ℓ = v.tree ℓ
  cached : v'.cached = fun ℓ => v.cached ℓ || decide (ℓ ∈ path O.height leaf)
  mapCalls : v'.mapCalls = v.mapCalls ++ visitCalls v.pos (evictVisits (O.fits v.pos leaf) O.Z O.height cs)
  calls : v'.calls = v.calls

/-- **`writePath`.** -/
theorem writePath_refines {leaf : ℕ} (hf : leaf < 2 ^ (O.height - 1))
    (hids : ∀ k d, v.stash k = some d → k < 2 ^ O.height * O.Z) :
    Refines L.Sees v (O.writePath leaf) (fun _ v' => ∃ cs, Evicted O v leaf cs v') (L.Fails F) := by
  unfold Oram.writePath
  refine getAll_refines.bind fun cs v' ⟨hcs, hv'⟩ => ?_
  subst v'
  have hknown : ∀ b ∈ cs, b.1 < 2 ^ O.height * O.Z := fun b hb => hids b.1 b.2 ((hcs.2 b.1 b.2).1 hb)
  refine (writeLevels_refines O (fun v i hi => map_get_refines hi) L.Z_pos O.height ⟨cs, [], []⟩ hknown).bind ?_
  rintro e v₁ ⟨⟨-, hdelete, buckets, hreq, hbuckets⟩, rfl⟩
  simp only [List.nil_append] at hdelete hreq
  refine (setCache_refines e.requests).bind ?_
  rintro _ v₂ rfl
  refine (removeAll_refines e.toDelete).post ?_
  rintro _ v₃ rfl
  have hlevels : ∀ x ∈ (evict (O.fits v.pos leaf) O.Z O.height cs).1, x.1 < O.height := fun x hx => (evict_fits _ _ hx).1
  have hfst : e.requests.map Prod.fst = (path O.height leaf).reverse := hreq ▸ requests_fst O L.height_le hf hbuckets
  have hmem : ∀ ℓ, ℓ ∈ e.requests.map Prod.fst ↔ ℓ ∈ path O.height leaf := fun ℓ => by rw [hfst, List.mem_reverse]
  have hnodup : (e.requests.map Prod.fst).Nodup := by
    rw [hfst, List.nodup_reverse]
    exact path_nodup hf
  refine ⟨cs, hcs, rfl, ?_, fun x hx => ?_, fun ℓ hℓ => ?_, ?_, rfl, rfl⟩
  · simp only [hdelete, List.map_map, Function.comp_def]
  · obtain ⟨r, hr, hr1, hr2⟩ := exists_of_mem_right hbuckets.flip hx
    have hval : writeAll v.tree e.requests (node O.height x.1 leaf) = r.2 := by
      refine writeAll_of_mem _ _ hnodup ?_
      rw [hreq, ← L.bucketForLevelLeaf_eq (hlevels x hx) hf, ← hr1]
      exact hr
    change O.IsBucket x.2 (writeAll v.tree e.requests (node O.height x.1 leaf))
    rw [hval]
    exact hr2
  · exact writeAll_of_notMem _ _ fun h => hℓ ((hmem ℓ).1 h)
  · simp only [hmem]

end LawfulOram

end PathOram
