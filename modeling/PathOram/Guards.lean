/-
Invariants that are checked part by part.

A guard says what an ORAM is kept to: the locations it may ask for, the blocks that may be in its stash and in its buckets,
the IDs that may be requested, what holds of its storage and of its map, what may be thrown, and after which exceptions the
guard still holds. `Guard.Laws` are the conditions on the methods of the storage and of the map, and on the blocks that the
ORAM makes itself; they need nothing of the sizes of the ORAM.

- `Guard.Laws.access`: **an access that is allowed** keeps a guard.
- `Guard.Laws.exec`, `Guard.Laws.attempts`: so do calls, whatever their outcomes.
-/
import PathOram.Failures

namespace PathOram

open Lib

variable {β μ : Type}

/-! ## Guards -/

structure Guard (β μ : Type) where
  location : ℕ → Prop
  /-- the blocks of the stash, and those of the buckets -/
  block : Block → Prop
  slot : Block → Prop
  request : ℕ → Prop
  storage : StorageState β → Prop
  map : μ → Prop
  /-- what is thrown, and after which exceptions the guard still holds -/
  throws : Exception → Prop
  survives : Exception → Prop

namespace Guard

variable (G : Guard β μ)

/-- what an exception leaves of a property -/
def After {σ : Type} (P : σ → Prop) (e : Exception) (s : σ) : Prop := G.throws e ∧ (G.survives e → P s)

/-- the path to a leaf may be asked for -/
def Path (O : Oram β μ) (leaf : ℕ) : Prop := ∀ level < O.height, G.location (O.bucketForLevelLeaf level leaf)

/-- the methods of the storage and of the map keep to the guard, and so do the blocks that the ORAM makes -/
structure Laws (O : Oram β μ) : Prop where
  get : ∀ locations, locations.Nodup → (∀ ℓ ∈ locations, G.location ℓ) →
    Triple G.storage (O.storage.get locations) (fun blocks t => ((∀ x ∈ blocks, G.slot x) ∧
      ∀ i < blocks.length, G.location (locations.getD (i / O.Z) 0)) ∧ G.storage t) (G.After G.storage)
  set : ∀ requests, (∀ r ∈ requests, G.location r.1 ∧ ∀ x ∈ r.2, G.slot x) →
    Triple G.storage (O.storage.set requests) (fun _ => G.storage) (G.After G.storage)
  position : ∀ block, G.request block →
    Triple G.map (O.map.get block) (fun leaf m => G.Path O leaf ∧ G.map m) (G.After G.map)
  entry : ∀ x, G.block x → Triple G.map (O.map.get x.1) (fun _ => G.map) (G.After G.map)
  remap : ∀ block leaf, G.request block → leaf < shlOne (O.height - 1) →
    Triple G.map (O.map.set block leaf) (fun _ => G.map) (G.After G.map)
  block_of_slot : ∀ x, G.slot x → x.1 ≠ ulongMax → G.block x
  slot_of_block : ∀ x, G.block x → G.slot x
  dummy : ∀ x : Block, x.1 = ulongMax → x.2.length = O.dataSize → G.slot x
  padded : ∀ x : Block, G.slot x → G.slot (x.1, zeroPad O.storage.userBlockSize x.2)
  overCapacity : ∀ capacity, G.throws (.overCapacity capacity)
  tooManyRequests : ∀ size batchSize, G.throws (.tooManyRequests size batchSize)
  diverges : G.throws .diverges

/-- the ORAM is within the guard -/
structure Holds (s : OramState β μ) : Prop where
  storage : G.storage s.storage
  map : G.map s.map
  stash : ∀ k d, s.stash.lookup k = some d → G.block (k, d)
  keys : ∀ ℓ ∈ s.cache, G.location ℓ
  cache : ∀ ℓ b, s.cache.lookup ℓ = some b → ∀ x ∈ b, G.slot x

/-- a request for an ID that is allowed, which puts a block that is allowed -/
def Allows (op : Op) : Prop := G.request op.block ∧ (op.read = false → G.block (op.block, op.data))

/-! ## Blocks on their way -/

section Blocks

variable {O : Oram β μ} {B B' : Block → Prop} {T : ℕ → Prop}

/-- the downloaded buckets are put together from the blocks that were downloaded -/
theorem of_cacheDownloaded {toGet : List ℕ} {blocks : List Block} {i : ℕ} {bucket : Bucket}
    {cache : UnorderedMap ℕ Bucket} (hblocks : ∀ x ∈ blocks, B x) (hbucket : ∀ x ∈ bucket, B x)
    (hcache : ∀ ℓ b, cache.lookup ℓ = some b → ∀ x ∈ b, B x) {ℓ : ℕ} {b : Bucket}
    (h : (O.cacheDownloaded toGet blocks i bucket cache).lookup ℓ = some b) : ∀ x ∈ b, B x := by
  induction blocks generalizing i bucket cache with
  | nil => exact hcache ℓ b h
  | cons y blocks ih =>
    have hlonger : ∀ x ∈ bucket ++ [y], B x := by
      intro x hx
      rcases List.mem_append.1 hx with hx | hx
      · exact hbucket x hx
      · rw [List.mem_singleton.1 hx]
        exact hblocks y List.mem_cons_self
    have hrest : ∀ x ∈ blocks, B x := fun x hx => hblocks x (List.mem_cons_of_mem _ hx)
    rw [Oram.cacheDownloaded] at h
    split_ifs at h
    · refine ih hrest (fun x hx => (List.not_mem_nil hx).elim) (fun k c hc => ?_) h
      rw [UnorderedMap.lookup_insert_eq] at hc
      split_ifs at hc
      · cases hc
        exact hlonger
      · exact hcache k c hc
    · exact ih hrest hlonger hcache h

/-- they are cached at the locations of the blocks -/
theorem keys_cacheDownloaded {toGet : List ℕ} {blocks : List Block} {i : ℕ} {bucket : Bucket}
    {cache : UnorderedMap ℕ Bucket} (hkeys : ∀ j < blocks.length, T (toGet.getD ((i + j) / O.Z) 0))
    (hcache : ∀ ℓ ∈ cache, T ℓ) {ℓ : ℕ} (h : ℓ ∈ O.cacheDownloaded toGet blocks i bucket cache) : T ℓ := by
  induction blocks generalizing i bucket cache with
  | nil => exact hcache ℓ h
  | cons y blocks ih =>
    have hrest : ∀ j < blocks.length, T (toGet.getD ((i + 1 + j) / O.Z) 0) := fun j hj => by
      rw [Nat.add_assoc, Nat.add_comm 1 j]
      exact hkeys (j + 1) (Nat.succ_lt_succ hj)
    rw [Oram.cacheDownloaded] at h
    split_ifs at h
    · refine ih hrest (fun k hk => ?_) h
      rcases (AList.mem_insert _).1 hk with rfl | hk
      · exact hkeys 0 (Nat.succ_pos _)
      · exact hcache k hk
    · exact ih hrest hcache h

/-- what an upload leaves in the range has the locations and the blocks it had, some of them padded -/
theorem padRange_slots {S : StorageAdapter β} (hpad : ∀ x : Block, B x → B (x.1, zeroPad S.userBlockSize x.2))
    {range : List (ℕ × Bucket)} (h : ∀ r ∈ range, T r.1 ∧ ∀ x ∈ r.2, B x) :
    ∀ r ∈ S.padRange range, T r.1 ∧ ∀ x ∈ r.2, B x := by
  have hbucket : ∀ b : Bucket, (∀ x ∈ b, B x) → ∀ x ∈ S.padBucket b, B x := by
    intro b
    induction b with
    | nil => exact fun hb => hb
    | cons y b ih =>
      intro hb x hx
      rw [StorageAdapter.padBucket] at hx
      split_ifs at hx
      · exact hb x hx
      · rcases List.mem_cons.1 hx with rfl | hx
        · exact hpad y (hb y List.mem_cons_self)
        · exact ih (fun x hx => hb x (List.mem_cons_of_mem _ hx)) x hx
  induction range with
  | nil => exact h
  | cons r range ih =>
    have hfirst := h r List.mem_cons_self
    have hrest : ∀ r ∈ range, T r.1 ∧ ∀ x ∈ r.2, B x := fun r hr => h r (List.mem_cons_of_mem _ hr)
    intro r' hr'
    rw [StorageAdapter.padRange] at hr'
    split_ifs at hr'
    · exact h r' hr'
    · rcases List.mem_cons.1 hr' with rfl | hr'
      · exact ⟨hfirst.1, hbucket r.2 hfirst.2⟩
      · exact hrest r' hr'
    · rcases List.mem_cons.1 hr' with rfl | hr'
      · exact ⟨hfirst.1, hbucket r.2 hfirst.2⟩
      · exact ih hrest r' hr'

section Eviction

variable {P : OramState β μ → Prop} {E : Exception → OramState β μ → Prop}

/-- the blocks to insert are blocks of the stash -/
theorem scanStash_subset (leaf level : ℕ) {l : List Block}
    (hget : ∀ x ∈ l, Triple P (Oram.onMap (O.map.get x.1)) (fun _ => P) E) (i : ℕ) (acc : Oram.Scan) :
    Triple P (O.scanStash leaf level l i acc) (fun acc' s => (∀ x ∈ acc'.toInsert, x ∈ acc.toInsert ∨ x ∈ l) ∧ P s) E := by
  induction l generalizing i acc with
  | nil => exact Triple.pure fun _ hs => ⟨fun _ hx => Or.inl hx, hs⟩
  | cons b l ih =>
    have hrest : ∀ x ∈ l, Triple P (Oram.onMap (O.map.get x.1)) (fun _ => P) E := fun x hx =>
      hget x (List.mem_cons_of_mem _ hx)
    rw [Oram.scanStash]
    apply (hget b List.mem_cons_self).bind
    intro entryLeaf
    have hskip : ∀ i, Triple P (O.scanStash leaf level l i acc)
        (fun acc' s => (∀ x ∈ acc'.toInsert, x ∈ acc.toInsert ∨ x ∈ b :: l) ∧ P s) E := fun i =>
      (ih hrest i acc).post fun _ _ hs => ⟨fun x hx => (hs.1 x hx).imp_right (List.mem_cons_of_mem _), hs.2⟩
    have htaken : ∀ {x}, x ∈ acc.toInsert ++ [b] → x ∈ acc.toInsert ∨ x ∈ b :: l := by
      intro x hx
      rcases List.mem_append.1 hx with hx | hx
      · exact Or.inl hx
      · exact Or.inr (List.mem_singleton.1 hx ▸ List.mem_cons_self)
    refine Triple.ite (fun _ => ?_) fun _ => hskip _
    apply Triple.ite (fun _ => Triple.pure fun _ hs => ⟨fun _ hx => htaken hx, hs⟩)
    intro _
    refine (ih hrest (i + 1) _).post fun _ _ hs => ⟨fun x hx => ?_, hs.2⟩
    rcases hs.1 x hx with hx | hx
    · exact htaken hx
    · exact Or.inr (List.mem_cons_of_mem _ hx)

/-- a bucket has blocks to insert and dummies -/
theorem fillBucket_blocks (n : ℕ) (toInsert : List Block) :
    Triple P (O.fillBucket n toInsert)
      (fun bucket s => (∀ x ∈ bucket, x ∈ toInsert ∨ x.1 = ulongMax ∧ x.2.length = O.dataSize) ∧ P s) E := by
  induction n generalizing toInsert with
  | zero => exact Triple.pure fun _ hs => ⟨fun x hx => (List.not_mem_nil hx).elim, hs⟩
  | succ n ih =>
    rw [Oram.fillBucket]
    cases hlast : toInsert.getLast? with
    | some b =>
      refine (ih _).bind fun rest => Triple.of_pure fun hrest => Triple.pure fun _ hs => ⟨fun x hx => ?_, hs⟩
      rcases List.mem_cons.1 hx with rfl | hx
      · exact Or.inl (List.mem_of_getLast? hlast)
      · exact (hrest x hx).imp_left List.mem_of_mem_dropLast
    | none =>
      apply (getRandomBlock_triple _).bind
      intro data
      apply (ih _).bind
      intro rest
      apply Triple.of_pure
      intro hrest
      refine Triple.pure fun _ hs => ⟨fun x hx => Or.inr ?_, hs⟩
      rcases List.mem_cons.1 hx with rfl | hx
      · exact ⟨rfl, data.2⟩
      · exact (hrest x hx).resolve_left List.not_mem_nil

theorem eraseLocal_subset (currentStash : List Block) (toDeleteLocal : List ℕ) :
    Oram.eraseLocal currentStash toDeleteLocal ⊆ currentStash := by
  unfold Oram.eraseLocal
  generalize toDeleteLocal.insertionSort (· ≥ ·) = indices
  induction indices generalizing currentStash with
  | nil => exact List.Subset.refl _
  | cons i indices ih => exact List.Subset.trans (ih (currentStash.eraseIdx i)) List.eraseIdx_subset

/-- the buckets of the eviction are those of the path, and have blocks of the stash and dummies -/
theorem writeLevels_blocks (hslot : ∀ x, B x → B' x)
    (hdummy : ∀ x : Block, x.1 = ulongMax → x.2.length = O.dataSize → B' x)
    (hget : ∀ x, B x → Triple P (Oram.onMap (O.map.get x.1)) (fun _ => P) E) (leaf levels : ℕ)
    (hpath : ∀ level < levels, T (O.bucketForLevelLeaf level leaf)) (e : Oram.Eviction)
    (hstash : ∀ x ∈ e.currentStash, B x) (hrequests : ∀ r ∈ e.requests, T r.1 ∧ ∀ x ∈ r.2, B' x) :
    Triple P (O.writeLevels leaf levels e) (fun e' s => (∀ r ∈ e'.requests, T r.1 ∧ ∀ x ∈ r.2, B' x) ∧ P s) E := by
  induction levels generalizing e with
  | zero => exact Triple.pure fun _ hs => ⟨hrequests, hs⟩
  | succ level ih =>
    rw [Oram.writeLevels, Oram.writeLevel]
    refine Triple.bind (Q := fun e' s => ((∀ x ∈ e'.currentStash, B x) ∧ ∀ r ∈ e'.requests, T r.1 ∧ ∀ x ∈ r.2, B' x) ∧ P s) ?_
      fun e' => Triple.of_pure fun he' => ih (fun level hl => hpath level (Nat.lt_succ_of_lt hl)) e' he'.1 he'.2
    apply (scanStash_subset leaf level (fun x hx => hget x (hstash x hx)) _ _).bind
    intro scan
    apply Triple.of_pure
    intro hscan
    apply (fillBucket_blocks _ _).bind
    intro bucket
    apply Triple.of_pure
    intro hbucket
    refine Triple.pure fun _ hs => ⟨⟨fun x hx => hstash x (eraseLocal_subset _ _ hx), fun r hr => ?_⟩, hs⟩
    rcases List.mem_append.1 hr with hr | hr
    · exact hrequests r hr
    · rw [List.mem_singleton.1 hr]
      refine ⟨hpath level (Nat.lt_succ_self level), fun x hx => ?_⟩
      rcases hbucket x hx with hx | ⟨hid, hlen⟩
      · exact hslot x (hstash x ((hscan x hx).resolve_left List.not_mem_nil))
      · exact hdummy x hid hlen

end Eviction

end Blocks

/-! ## Parts of an access -/

section Parts

variable {G} {O : Oram β μ}

theorem onStorage_holds {α : Type} {m : Run (StorageState β) α} {p : α → Prop}
    (h : Triple G.storage m (fun a t => p a ∧ G.storage t) (G.After G.storage)) :
    Triple G.Holds (Oram.onStorage m) (fun a s => p a ∧ G.Holds s) (G.After G.Holds) := by
  intro w s hs
  refine ((Triple.zoom (OramState.storageLens β μ) h s).conseq (fun _ h => h) ?_ ?_) w s ⟨rfl, hs.storage⟩
  · rintro a _ ⟨t, rfl, ha, ht⟩
    exact ⟨ha, { hs with storage := ht }⟩
  · rintro e _ ⟨t, rfl, he, ht⟩
    exact ⟨he, fun hsurvives => { hs with storage := ht hsurvives }⟩

theorem onMap_holds {α : Type} {m : Run μ α} {p : α → Prop}
    (h : Triple G.map m (fun a t => p a ∧ G.map t) (G.After G.map)) :
    Triple G.Holds (Oram.onMap m) (fun a s => p a ∧ G.Holds s) (G.After G.Holds) := by
  intro w s hs
  refine ((Triple.zoom (OramState.mapLens β μ) h s).conseq (fun _ h => h) ?_ ?_) w s ⟨rfl, hs.map⟩
  · rintro a _ ⟨t, rfl, ha, ht⟩
    exact ⟨ha, { hs with map := ht }⟩
  · rintro e _ ⟨t, rfl, he, ht⟩
    exact ⟨he, fun hsurvives => { hs with map := ht hsurvives }⟩

theorem Holds.after {s : OramState β μ} (hs : G.Holds s) {e : Exception} (he : G.throws e) : G.After G.Holds e s :=
  ⟨he, fun _ => hs⟩

/-- the path is added to a set of locations -/
theorem pathLocations_holds {leaf : ℕ} (hleaf : G.Path O leaf) {path : List ℕ} (hpath : path.Nodup ∧ ∀ ℓ ∈ path, G.location ℓ) :
    (O.pathLocations leaf path).Nodup ∧ ∀ ℓ ∈ O.pathLocations leaf path, G.location ℓ := by
  unfold Oram.pathLocations
  have hlevels : ∀ level ∈ List.range O.height, G.location (O.bucketForLevelLeaf level leaf) := fun level hl =>
    hleaf level (List.mem_range.1 hl)
  generalize List.range O.height = levels at hlevels
  induction levels generalizing path with
  | nil => exact hpath
  | cons level levels ih =>
    refine ih ⟨hpath.1.insert, fun ℓ hℓ => ?_⟩ fun l hl => hlevels l (List.mem_cons_of_mem _ hl)
    rcases List.mem_insert_iff.1 hℓ with rfl | hℓ
    · exact hlevels level List.mem_cons_self
    · exact hpath.2 ℓ hℓ

namespace Laws

variable (h : G.Laws O)

include h

theorem getCache {locations : List ℕ} (hl : locations.Nodup ∧ ∀ ℓ ∈ locations, G.location ℓ) (dryRun : Bool) :
    Triple G.Holds (O.getCache locations dryRun) (fun blocks s => (∀ x ∈ blocks, G.slot x) ∧ G.Holds s)
      (G.After G.Holds) := by
  unfold Oram.getCache
  refine Triple.bind (Q := fun a s => (∀ ℓ b, a.cache.lookup ℓ = some b → ∀ x ∈ b, G.slot x) ∧ G.Holds s)
    (Triple.read fun s hs => ⟨hs.cache, hs⟩) fun a => Triple.of_pure fun ha => ?_
  apply (iterate_triple locations).bind
  intro order
  apply Triple.of_pure
  intro horder
  have hcached : ∀ x ∈ order.foldl (fun response ℓ => (a.cache.lookup ℓ).getD [] ++ response) [], G.slot x := by
    intro x hx
    obtain ⟨ℓ, -, hx⟩ := (LawfulOram.mem_cachedResponse (fun ℓ => (a.cache.lookup ℓ).getD []) order x).1 hx
    cases hb : a.cache.lookup ℓ with
    | none => simp [hb] at hx
    | some b => exact ha ℓ b hb x (by simpa [hb] using hx)
  have hlegal : ∀ ℓ ∈ order.filter (fun ℓ => ℓ ∉ a.cache), G.location ℓ := fun ℓ hℓ =>
    hl.2 ℓ (horder.mem_iff.1 (List.mem_of_mem_filter hℓ))
  refine Triple.ite (fun _ => ?_) fun _ => Triple.pure fun s hs => ⟨fun x hx => ?_, hs⟩
  · refine (onStorage_holds (h.get _ (((horder.nodup_iff).2 hl.1).filter _) hlegal)).bind fun downloaded =>
      Triple.of_pure fun hdownloaded => ?_
    refine Triple.bind (Q := fun _ => G.Holds)
      (Triple.modify fun s hs => { hs with keys := fun ℓ hℓ => ?_, cache := fun ℓ b hb => ?_ })
      fun _ => Triple.pure fun s hs => ⟨fun x hx => ?_, hs⟩
    · exact keys_cacheDownloaded (by simpa using hdownloaded.2) hs.keys hℓ
    · exact of_cacheDownloaded hdownloaded.1 (fun x hx => (List.not_mem_nil hx).elim) hs.cache hb
    · cases dryRun with
      | true => simp at hx
      | false =>
        rcases List.mem_append.1 hx with hx | hx
        · exact hcached x hx
        · exact hdownloaded.1 x hx
  · cases dryRun with
    | true => simp at hx
    | false => exact hcached x hx

theorem addBlocks {blocks : List Block} (hb : ∀ x ∈ blocks, G.slot x) :
    Triple G.Holds (O.addBlocks blocks) (fun _ => G.Holds) (G.After G.Holds) := by
  refine Triple.forM (fun _ => G.Holds) fun b rest hm => Triple.ite (fun hid => ?_) fun _ => Triple.pure fun _ hs => hs
  intro w s hs
  rw [exec_stashAdd]
  split_ifs
  · exact hs.after (h.overCapacity _)
  · refine { hs with stash := fun k d hd => ?_ }
    change (UnorderedMap.emplace s.stash b.1 b.2).lookup k = some d at hd
    rw [UnorderedMap.lookup_emplace] at hd
    split_ifs at hd with hk
    · cases hd
      exact hk.1 ▸ h.block_of_slot b (hb b (hm.subset List.mem_cons_self)) hid
    · exact hs.stash k d hd

theorem readPath {leaf : ℕ} (hleaf : G.Path O leaf) {path : List ℕ} (hpath : path.Nodup ∧ ∀ ℓ ∈ path, G.location ℓ)
    (putInStash : Bool) : Triple G.Holds (O.readPath leaf path putInStash)
      (fun path s => (path.Nodup ∧ ∀ ℓ ∈ path, G.location ℓ) ∧ G.Holds s) (G.After G.Holds) := by
  have hlocations := pathLocations_holds hleaf hpath
  unfold Oram.readPath
  refine Triple.ite (fun _ => ?_) fun _ => Triple.pure fun _ hs => ⟨hlocations, hs⟩
  apply (h.getCache hlocations false).bind
  intro blocks
  apply Triple.of_pure
  intro hblocks
  exact (h.addBlocks hblocks).bind fun _ => Triple.pure fun _ hs => ⟨hlocations, hs⟩

theorem mapEntry {x : Block} (hx : G.block x) :
    Triple G.Holds (Oram.onMap (O.map.get x.1)) (fun _ => G.Holds) (G.After G.Holds) :=
  (onMap_holds (p := fun _ => True) ((h.entry x hx).post fun _ _ hm => ⟨trivial, hm⟩)).post fun _ _ hs => hs.2

theorem writePath {leaf : ℕ} (hleaf : G.Path O leaf) :
    Triple G.Holds (O.writePath leaf) (fun _ => G.Holds) (G.After G.Holds) := by
  unfold Oram.writePath
  have hgetAll : Triple G.Holds (Oram.onStash InMemoryStashAdapter.getAll)
      (fun cs s => (∀ x ∈ cs, G.block x) ∧ G.Holds s) (G.After G.Holds) := by
    intro w s hs
    refine ((Triple.zoom (OramState.stashLens β μ) (LawfulOram.getAll_triple (E := fun _ _ => False) s.stash) s).conseq
      (fun _ h => h) (fun cs s' hc => ?_) fun _ _ hf => ?_) w s ⟨rfl, rfl⟩
    · obtain ⟨t, rfl, hcs, rfl⟩ := hc
      exact ⟨fun x hx => hs.stash x.1 x.2 ((hcs.2 x.1 x.2).1 hx), hs⟩
    · obtain ⟨t, -, hf⟩ := hf
      exact hf.elim
  apply hgetAll.bind
  intro cs
  apply Triple.of_pure
  intro hcs
  refine (writeLevels_blocks h.slot_of_block h.dummy (fun x hx => h.mapEntry hx) leaf O.height hleaf ⟨cs, [], []⟩ hcs
    (fun r hr => (List.not_mem_nil hr).elim)).bind fun e => Triple.of_pure fun he => ?_
  refine Triple.bind (Q := fun _ => G.Holds)
    (Triple.modify fun s hs => { hs with keys := fun ℓ hℓ => ?_, cache := fun ℓ b hb => ?_ })
    fun _ => ?_
  · rcases UnorderedMap.mem_assignAll.1 hℓ with hℓ | hℓ
    · exact hs.keys ℓ hℓ
    · obtain ⟨r, hr, rfl⟩ := List.mem_map.1 hℓ
      exact (he r hr).1
  · rcases UnorderedMap.of_lookup_assignAll hb with hr | hb
    · exact (he _ hr).2
    · exact hs.cache ℓ b hb
  · apply Triple.forM (fun _ => G.Holds)
    intro removed _ _
    refine fun w s hs => { hs with stash := fun k d hd => hs.stash k d ?_ }
    change (AList.erase (ofInt removed) s.stash).lookup k = some d at hd
    rw [UnorderedMap.lookup_erase_eq] at hd
    split_ifs at hd
    exact hd

theorem remapBlock {block : ℕ} (hb : G.request block) :
    Triple G.Holds (O.remap block) (fun leaf s => G.Path O leaf ∧ G.Holds s) (G.After G.Holds) := by
  unfold Oram.remap
  apply (onMap_holds (h.position block hb)).bind
  intro previousPosition
  apply Triple.of_pure
  intro hprevious
  apply (getRandomULong_triple shlOne_pos).bind
  intro leaf
  apply Triple.of_pure
  intro hleaf
  apply (onMap_holds (p := fun _ => True) ((h.remap block leaf hb hleaf).post fun _ _ hm => ⟨trivial, hm⟩)).bind
  intro _
  exact Triple.pure fun _ hs => ⟨hprevious, hs.2⟩

theorem finishAccess {read : Bool} {block : ℕ} {data : Bytes} (hop : read = false → G.block (block, data)) (response : Bytes)
    {leaf : ℕ} (hleaf : G.Path O leaf) :
    Triple G.Holds (O.finishAccess read block data response leaf) (fun _ => G.Holds) (G.After G.Holds) := by
  unfold Oram.finishAccess
  have hrest : Triple G.Holds (do
      let response ← Oram.onStash (InMemoryStashAdapter.get block response)
      O.writePath leaf
      return response : Run (OramState β μ) Bytes) (fun _ => G.Holds) (G.After G.Holds) := by
    refine Triple.bind (Q := fun _ => G.Holds) ?_ fun response =>
      (h.writePath hleaf).bind fun _ => Triple.pure fun _ hs => hs
    intro w s hs
    refine ((Triple.zoom (OramState.stashLens β μ) (P := fun st => st = s.stash) (Q := fun _ st => st = s.stash)
      (E := fun _ _ => False) ?_ s).conseq (fun _ h => h) (fun _ s' hg => ?_) fun _ _ hf => ?_) w s ⟨rfl, rfl⟩
    · apply Triple.bind (Q := fun _ st => st = s.stash) (Triple.read fun _ h => h)
      intro a
      cases a.lookup block with
      | some d => exact Triple.pure fun _ h => h
      | none => exact Triple.pure fun _ h => h
    · obtain ⟨t, rfl, rfl⟩ := hg
      exact hs
    · obtain ⟨t, -, hf⟩ := hf
      exact hf.elim
  refine Triple.ite (fun hread => ?_) fun _ => by simpa using hrest
  refine Triple.bind (Q := fun _ => G.Holds) ?_ fun _ => hrest
  intro w s hs
  rw [exec_stashUpdate]
  split_ifs
  · exact hs.after (h.overCapacity _)
  · refine { hs with stash := fun k d hd => ?_ }
    change (AList.insert block data s.stash).lookup k = some d at hd
    rw [UnorderedMap.lookup_insert_eq] at hd
    split_ifs at hd with hk
    · cases hd
      exact hk ▸ hop (by simpa using hread)
    · exact hs.stash k d hd

/-! ## Accesses and calls -/

/-- **An access that is allowed.** -/
theorem access {op : Op} (hop : G.Allows op) (response : Bytes) :
    Triple G.Holds (O.access op.read op.block op.data response) (fun _ => G.Holds) (G.After G.Holds) := by
  rw [access_eq]
  apply (h.remapBlock hop.1).bind
  intro leaf
  apply Triple.of_pure
  intro hleaf
  apply (h.readPath hleaf ⟨List.nodup_nil, fun ℓ hℓ => (List.not_mem_nil hℓ).elim⟩ true).bind
  intro _
  exact Triple.of_pure fun _ => h.finishAccess hop.2 response hleaf

theorem syncCache : Triple G.Holds O.syncCache (fun _ s => s.cache = ∅ ∧ G.Holds s) (G.After G.Holds) := by
  unfold Oram.syncCache
  refine Triple.bind (Q := fun a s => (∀ r ∈ a.cache.toList, G.location r.1 ∧ ∀ x ∈ r.2, G.slot x) ∧ G.Holds s)
    (Triple.read fun s hs => ⟨fun r hr => ?_, hs⟩) fun a => Triple.of_pure fun ha => ?_
  · have hlookup := UnorderedMap.mem_toList.1 hr
    exact ⟨hs.keys r.1 (UnorderedMap.mem_iff_lookup.2 ⟨_, hlookup⟩), hs.cache r.1 r.2 hlookup⟩
  apply (iterate_triple a.cache.toList).bind
  intro range
  apply Triple.of_pure
  intro hrange
  have hlegal : ∀ r ∈ range, G.location r.1 ∧ ∀ x ∈ r.2, G.slot x := fun r hr => ha r (hrange.mem_iff.1 hr)
  have hpadded := padRange_slots h.padded hlegal
  refine Triple.bind (Q := fun _ => G.Holds)
    (Triple.modify fun s hs => { hs with keys := fun ℓ hℓ => ?_, cache := fun ℓ b hb => ?_ })
    fun _ => ?_
  · rcases UnorderedMap.mem_assignAll.1 hℓ with hℓ | hℓ
    · exact hs.keys ℓ hℓ
    · obtain ⟨r, hr, rfl⟩ := List.mem_map.1 hℓ
      exact (hpadded r hr).1
  · rcases UnorderedMap.of_lookup_assignAll hb with hr | hb
    · exact (hpadded _ hr).2
    · exact hs.cache ℓ b hb
  · apply (onStorage_holds (p := fun _ => True) ((h.set range hlegal).post fun _ _ ht => ⟨trivial, ht⟩)).bind
    intro _
    refine Triple.modify fun s hs => ⟨rfl, { hs.2 with keys := fun ℓ hℓ => ?_, cache := fun ℓ b hb => ?_ }⟩
    · exact absurd hℓ (AList.notMem_empty ℓ)
    · simp at hb

theorem prepare {requests : List Block} (hr : ∀ r ∈ requests, G.request r.1) :
    Triple G.Holds (O.prepare requests) (fun _ => G.Holds) (G.After G.Holds) := by
  have hprefetch : Triple G.Holds (O.prefetch requests)
      (fun locations s => (locations.Nodup ∧ ∀ ℓ ∈ locations, G.location ℓ) ∧ G.Holds s) (G.After G.Holds) := by
    refine (Triple.foldlM (fun _ locations s => (locations.Nodup ∧ ∀ ℓ ∈ locations, G.location ℓ) ∧ G.Holds s)
      (fun locations r rest hm => Triple.of_pure fun hl => ?_) []).pre fun s hs => ⟨⟨List.nodup_nil, by simp⟩, hs⟩
    apply (onMap_holds (h.position r.1 (hr r (hm.subset List.mem_cons_self)))).bind
    intro leaf
    apply Triple.of_pure
    intro hleaf
    exact h.readPath hleaf hl false
  exact hprefetch.bind fun locations => Triple.of_pure fun hl => (h.getCache hl true).post fun _ _ hs => hs.2

theorem accesses {call : Call} (hcall : ∀ op ∈ call.ops, G.Allows op) :
    Triple G.Holds (O.accesses call) (fun _ => G.Holds) (G.After G.Holds) := by
  cases call with
  | get block => exact (h.access (hcall _ List.mem_cons_self) []).bind fun _ => Triple.pure fun _ hs => hs
  | put block data => exact (h.access (hcall _ List.mem_cons_self) []).bind fun _ => Triple.pure fun _ hs => hs
  | multiple requests =>
    apply Triple.ite (fun _ => Triple.throw fun s hs => hs.after (h.tooManyRequests _ _))
    intro _
    apply (h.prepare fun r hm => (hcall _ (List.mem_map_of_mem hm)).1).bind
    intro _
    exact (serve_triple (fun r hm response => h.access (hcall _ (List.mem_map_of_mem hm)) response) fun _ _ hs =>
      hs.after h.diverges).post fun _ _ hs => hs.1

/-- **A call whose requests are allowed.** -/
theorem exec {call : Call} (hcall : ∀ op ∈ call.ops, G.Allows op) :
    Triple G.Holds (O.exec call) (fun _ s => s.cache = ∅ ∧ G.Holds s) (G.After G.Holds) := by
  rw [exec_eq]
  exact (h.accesses hcall).bind fun _ => h.syncCache.bind fun _ => Triple.pure fun _ hs => hs

/-- **A caller that goes on after exceptions**, if the guard survives them. -/
theorem attempts (hsurvives : ∀ e, G.survives e) {calls : List Call} (hcalls : ∀ call ∈ calls, ∀ op ∈ call.ops, G.Allows op)
    {E : Exception → OramState β μ → Prop} : Triple G.Holds (O.attempts calls)
      (fun outcomes s => (∀ e, .error e ∈ outcomes → G.throws e) ∧ G.Holds s) E := by
  have hattempt : ∀ call ∈ calls, Triple G.Holds (Prog.attempt (O.exec call))
      (fun outcome s => G.Holds s ∧ ∀ e, outcome = .error e → G.throws e) E := by
    intro call hm w s hs
    have hexec := h.exec (hcalls call hm) w s hs
    rw [Prog.exec_attempt]
    rcases hr : (O.exec call).exec w s with ⟨e | reply, w', s'⟩
    · rw [hr] at hexec
      exact ⟨hexec.2 (hsurvives e), fun e' he => Except.error.inj he ▸ hexec.1⟩
    · rw [hr] at hexec
      exact ⟨hexec.2, fun e he => by cases he⟩
  refine (Triple.mapM hattempt).post fun outcomes s hs => ⟨fun e he => ?_, hs.1⟩
  obtain ⟨call, -, hthrows⟩ := exists_of_mem_right hs.2 he
  exact hthrows e rfl

end Laws

end Parts

end Guard

end PathOram
