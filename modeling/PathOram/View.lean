/-
What the state of an ORAM stands for, and what each primitive of the ORAM does to it.

A `View` forgets how a state is kept: positions are a function, the stash a partial one, and the cache and the storage
are one tree, since a cached bucket hides the stored one. `LawfulOram` gathers what is asked of the parts, a provider
and a map that keep their contracts, and of the sizes; `Sees` is the relation of views and states. Each primitive is
shown to be a step between views (`map_get_refines`, `getCache_refines`, `syncCache_refines`, `addBlocks_refines`, ...),
and the modules above reason about views alone.
-/
import PathOram.Oram
import PathOram.StorageSpec
import PathOram.PositionMapSpec
import PathOram.Lib.Tree

namespace PathOram

open Lib

/-- an ORAM less its representation, with the records of its calls -/
structure View where
  pos : ℕ → ℕ
  stash : ℕ → Option Bytes
  tree : ℕ → Bucket
  cached : ℕ → Bool
  mapCalls : List MapCall
  calls : List StorageCall

/-- the sizes at which the shifts of the code are exact, and adapters that fit the ORAM -/
structure Oram.Sized {β μ : Type} (O : Oram β μ) : Prop where
  height_pos : 1 ≤ O.height
  height_le : O.height ≤ 31
  blocks_lt : 2 ^ O.height * O.Z < 2 ^ 64
  Z_eq : O.storage.Z = O.Z
  dataSize_eq : O.dataSize = O.storage.userBlockSize
  capacity_ge : 2 ^ O.height ≤ O.storage.capacity
  crypto : O.storage.crypto.Lawful

/-- an ORAM over a provider and a map that keep their contracts -/
structure LawfulOram {β μ : Type} (O : Oram β μ) extends Oram.Sized O where
  storage : LawfulBackend O.storage.backend O.storage.capacity O.storage.blockSize
  map : LawfulMap O.map (2 ^ O.height * O.Z)

/-! ## Arithmetic -/

/-- with shifts below 32 the bucket of a level is the node of the tree -/
theorem Oram.bucketForLevelLeaf_eq_node {β μ : Type} (O : Oram β μ) (hh : O.height ≤ 31) {level leaf : ℕ}
    (hl : level < O.height) (hf : leaf < 2 ^ (O.height - 1)) :
    O.bucketForLevelLeaf level leaf = node O.height level leaf := by
  have hle : 2 ^ (O.height - 1) ≤ 2 ^ 30 := Nat.pow_le_pow_right (by norm_num) (by omega)
  have h1 : sub64 O.height 1 = O.height - 1 := sub64_of_le (by omega) (by omega)
  have hsub : sub64 (sub64 O.height 1) level = O.height - 1 - level := by
    rw [h1, sub64_of_le (by omega) (by omega)]
  rw [bucketForLevelLeaf, hsub, shlOne_of_le (by omega), Nat.mod_eq_of_lt (by omega), Nat.mod_eq_of_lt (by omega : _ < 64),
    node]

namespace Oram.Sized

variable {β μ : Type} {O : Oram β μ} (hO : O.Sized)

include hO

theorem Z_pos : 0 < O.Z := hO.Z_eq ▸ Nat.pos_of_ne_zero O.storage.Z_ne_zero

theorem blocks_eq : O.blocks = 2 ^ O.height * O.Z := by
  have hle := hO.height_le
  have hh : O.height % 64 = O.height := Nat.mod_eq_of_lt (by omega)
  rw [Oram.blocks, hh, Nat.mod_eq_of_lt hO.blocks_lt]

theorem shlOne_eq : shlOne (O.height - 1) = 2 ^ (O.height - 1) := by
  have hle := hO.height_le
  exact shlOne_of_le (by omega)

theorem leaves_le : 2 ^ (O.height - 1) ≤ 2 ^ 30 := by
  have hle := hO.height_le
  exact Nat.pow_le_pow_right (by norm_num) (by omega)

theorem bucketForLevelLeaf_eq {level leaf : ℕ} (hl : level < O.height) (hf : leaf < 2 ^ (O.height - 1)) :
    O.bucketForLevelLeaf level leaf = node O.height level leaf := O.bucketForLevelLeaf_eq_node hO.height_le hl hf

theorem canInclude_iff {level leaf leaf' : ℕ} (hl : level < O.height) (hf : leaf < 2 ^ (O.height - 1))
    (hf' : leaf' < 2 ^ (O.height - 1)) :
    O.canInclude leaf leaf' level = true ↔ node O.height level leaf = node O.height level leaf' := by
  rw [canInclude, hO.bucketForLevelLeaf_eq hl hf, hO.bucketForLevelLeaf_eq hl hf', beq_iff_eq]

theorem mem_path_capacity {leaf ℓ : ℕ} (hf : leaf < 2 ^ (O.height - 1)) (h : ℓ ∈ path O.height leaf) :
    ℓ < O.storage.capacity := (mem_path_lt hf h).2.trans_le hO.capacity_ge

/-- `readPath` adds the locations of a path to a set -/
theorem pathLocations_spec {leaf : ℕ} (hf : leaf < 2 ^ (O.height - 1)) {acc : List ℕ} (hacc : acc.Nodup) :
    (O.pathLocations leaf acc).Nodup ∧ ∀ ℓ, ℓ ∈ O.pathLocations leaf acc ↔ ℓ ∈ acc ∨ ℓ ∈ path O.height leaf := by
  have hgen : ∀ (levels : List ℕ) (acc : List ℕ), acc.Nodup →
      (levels.foldl (fun path level => path.insert (O.bucketForLevelLeaf level leaf)) acc).Nodup ∧
        ∀ ℓ, ℓ ∈ levels.foldl (fun path level => path.insert (O.bucketForLevelLeaf level leaf)) acc ↔
          ℓ ∈ acc ∨ ∃ level ∈ levels, O.bucketForLevelLeaf level leaf = ℓ := by
    intro levels
    induction levels with
    | nil => exact fun acc h => ⟨h, by simp⟩
    | cons level levels ih =>
      intro acc h
      obtain ⟨h1, h2⟩ := ih _ (h.insert (a := O.bucketForLevelLeaf level leaf))
      refine ⟨h1, fun ℓ => ?_⟩
      rw [List.foldl_cons, h2, List.mem_insert_iff, List.exists_mem_cons_iff]
      constructor
      · rintro ((rfl | h) | h)
        exacts [Or.inr (Or.inl rfl), Or.inl h, Or.inr (Or.inr h)]
      · rintro (h | h | h)
        exacts [Or.inl (Or.inr h), Or.inl (Or.inl h.symm), Or.inr h]
  obtain ⟨hnodup, hmem⟩ := hgen (List.range O.height) acc hacc
  refine ⟨hnodup, fun ℓ => (hmem ℓ).trans (or_congr_right ?_)⟩
  rw [mem_path]
  constructor
  · rintro ⟨level, hl, rfl⟩
    exact ⟨level, List.mem_range.1 hl, (hO.bucketForLevelLeaf_eq (List.mem_range.1 hl) hf).symm⟩
  · rintro ⟨level, hl, rfl⟩
    exact ⟨level, List.mem_range.2 hl, hO.bucketForLevelLeaf_eq hl hf⟩

theorem pathLocations_perm {leaf : ℕ} (hf : leaf < 2 ^ (O.height - 1)) :
    (O.pathLocations leaf []).Perm (path O.height leaf) := by
  obtain ⟨hnodup, hmem⟩ := hO.pathLocations_spec hf List.nodup_nil
  exact (List.perm_ext_iff_of_nodup hnodup (path_nodup hf)).2 fun ℓ => by simp [hmem]

/-- different locations of the tree are counted by an `unsigned int` -/
theorem locations_length {locations : List ℕ} (hn : locations.Nodup) (hlt : ∀ ℓ ∈ locations, ℓ < 2 ^ O.height) :
    locations.length < 2 ^ 32 := by
  have hsub : locations.Subperm (List.range (2 ^ O.height)) := hn.subperm fun ℓ hℓ => List.mem_range.2 (hlt ℓ hℓ)
  calc locations.length ≤ 2 ^ O.height := by simpa using hsub.length_le
    _ ≤ 2 ^ 31 := Nat.pow_le_pow_right (by norm_num) hO.height_le
    _ < 2 ^ 32 := by norm_num

theorem pathLocations_length {leaf : ℕ} (hf : leaf < 2 ^ (O.height - 1)) : (O.pathLocations leaf []).length < 2 ^ 32 :=
  hO.locations_length (hO.pathLocations_spec hf List.nodup_nil).1 fun _ hℓ =>
    (mem_path_lt hf ((hO.pathLocations_perm hf).mem_iff.1 hℓ)).2

end Oram.Sized

/-! ## Views of states -/

namespace LawfulOram

variable {β μ : Type} {O : Oram β μ} (L : LawfulOram O)

/-- the state s stands for v -/
structure Sees (v : View) (s : OramState β μ) : Prop where
  map : L.map.Knows v.pos v.mapCalls s.map
  stash : v.stash = fun k => s.stash.lookup k
  tree : ∃ store, StorageAdapter.Holds L.storage store v.calls s.storage ∧
    v.tree = fun ℓ => (s.cache.lookup ℓ).getD (store ℓ)
  cached : v.cached = fun ℓ => decide (ℓ ∈ s.cache)

/-- how a method fails: the map threw, of which nothing is asked, or the state reached stands for a view of F -/
def Fails (F : Exception → View → Prop) (e : Exception) (s : OramState β μ) : Prop :=
  L.map.err e ∨ ∃ v, F e v ∧ L.Sees v s

theorem Fails.mono {L : LawfulOram O} {F F' : Exception → View → Prop} (h : ∀ e v, F e v → F' e v) {e : Exception}
    {s : OramState β μ} (hf : L.Fails F e s) : L.Fails F' e s := by
  rcases hf with hf | ⟨v, hv, hs⟩
  · exact Or.inl hf
  · exact Or.inr ⟨v, h e v hv, hs⟩

/-- weaken what a step does and how it fails -/
theorem refines_mono {L : LawfulOram O} {α : Type} {v : View} {m : Run (OramState β μ) α} {Q Q' : α → View → Prop}
    {F F' : Exception → View → Prop} (h : Refines L.Sees v m Q (L.Fails F))
    (hs : ∀ a v', Q a v' → Q' a v') (hF : ∀ e v', F e v' → F' e v') : Refines L.Sees v m Q' (L.Fails F') :=
  h.conseq hs fun _ _ => Fails.mono hF

variable {L} {v : View} {F : Exception → View → Prop}

/-! ## Positions -/

theorem map_refines {α : Type} {m : Run μ α} {Q : α → (ℕ → ℕ) → List MapCall → Prop}
    (h : Triple (L.map.Knows v.pos v.mapCalls) m (fun a m => ∃ pos calls, Q a pos calls ∧ L.map.Knows pos calls m)
      (fun e _ => L.map.err e)) :
    Refines L.Sees v (Oram.onMap m)
      (fun a v' => ∃ pos calls, Q a pos calls ∧ v' = { v with pos := pos, mapCalls := calls }) (L.Fails F) := by
  intro w s hs
  have hz := Triple.zoom (OramState.mapLens β μ) h s w s ⟨rfl, hs.map⟩
  unfold Oram.onMap
  rcases hr : (Prog.zoom (OramState.mapLens β μ) m).exec w s with ⟨e | a, w', s'⟩
  · rw [hr] at hz
    obtain ⟨t, rfl, he⟩ := hz
    exact Or.inl he
  · rw [hr] at hz
    obtain ⟨t, rfl, pos, calls, hQ, ht⟩ := hz
    exact ⟨_, ⟨pos, calls, hQ, rfl⟩, ht, hs.stash, hs.tree, hs.cached⟩

theorem map_get_refines {i : ℕ} (hi : i < 2 ^ O.height * O.Z) :
    Refines L.Sees v (Oram.onMap (O.map.get i))
      (fun r v' => r = v.pos i ∧ v' = { v with mapCalls := v.mapCalls ++ [.get i (v.pos i)] }) (L.Fails F) := by
  refine (map_refines (Q := fun r pos calls => r = v.pos i ∧ pos = v.pos ∧ calls = v.mapCalls ++ [.get i (v.pos i)])
    ((L.map.get_knows v.pos v.mapCalls hi).post fun r m hm => ⟨_, _, ⟨hm.1, rfl, rfl⟩, hm.2⟩)).post ?_
  rintro r v' ⟨_, _, ⟨hr, rfl, rfl⟩, rfl⟩
  exact ⟨hr, rfl⟩

theorem map_set_refines {i leaf : ℕ} (hi : i < 2 ^ O.height * O.Z) (hl : leaf < 2 ^ 64) :
    Refines L.Sees v (Oram.onMap (O.map.set i leaf))
      (fun _ v' => v' = { v with pos := Function.update v.pos i leaf, mapCalls := v.mapCalls ++ [.set i leaf] })
      (L.Fails F) := by
  refine (map_refines
    (Q := fun _ pos calls => pos = Function.update v.pos i leaf ∧ calls = v.mapCalls ++ [.set i leaf])
    ((L.map.set_knows v.pos v.mapCalls hi hl).post fun r m hm => ⟨_, _, ⟨rfl, rfl⟩, hm⟩)).post ?_
  rintro r v' ⟨_, _, ⟨rfl, rfl⟩, rfl⟩
  rfl

/-- a program that only asks the world keeps the view -/
theorem world_refines {α : Type} {m : Run (OramState β μ) α} {Q : α → Prop}
    (h : Triple (L.Sees v) m (fun a s => Q a ∧ L.Sees v s) (L.Fails F)) :
    Refines L.Sees v m (fun a v' => Q a ∧ v' = v) (L.Fails F) :=
  Triple.post h fun _ _ hs => ⟨v, ⟨hs.1, rfl⟩, hs.2⟩

theorem randomLeaf_refines (L : LawfulOram O) :
    Refines L.Sees v (getRandomULong (shlOne (O.height - 1)) : Run (OramState β μ) ℕ)
      (fun leaf v' => leaf < 2 ^ (O.height - 1) ∧ v' = v) (L.Fails F) :=
  world_refines (by rw [L.shlOne_eq]; exact getRandomULong_triple (Nat.two_pow_pos _))

/-! ## The stash -/

/-- the entries of a stash, in some order -/
def Lists (l : List Block) (stash : ℕ → Option Bytes) : Prop :=
  (l.map Prod.fst).Nodup ∧ ∀ k d, (k, d) ∈ l ↔ stash k = some d

theorem stash_refines {α : Type} {m : Run Stash α} {Q : α → (ℕ → Option Bytes) → Prop}
    {E : Exception → (ℕ → Option Bytes) → Prop}
    (h : Triple (fun st : Stash => v.stash = fun k => st.lookup k) m (fun a st => Q a fun k => st.lookup k)
      (fun e st => E e fun k => st.lookup k))
    (hE : ∀ e stash, E e stash → F e { v with stash := stash }) :
    Refines L.Sees v (Oram.onStash m) (fun a v' => ∃ stash, Q a stash ∧ v' = { v with stash := stash }) (L.Fails F) := by
  intro w s hs
  have hz := Triple.zoom (OramState.stashLens β μ) h s w s ⟨rfl, hs.stash⟩
  unfold Oram.onStash
  rcases hr : (Prog.zoom (OramState.stashLens β μ) m).exec w s with ⟨e | a, w', s'⟩
  · rw [hr] at hz
    obtain ⟨t, rfl, he⟩ := hz
    exact Or.inr ⟨_, hE e _ he, hs.map, rfl, hs.tree, hs.cached⟩
  · rw [hr] at hz
    obtain ⟨t, rfl, hQ⟩ := hz
    exact ⟨_, ⟨_, hQ, rfl⟩, hs.map, rfl, hs.tree, hs.cached⟩

/-- `getAll` lists the stash and does not change it -/
theorem getAll_triple {E : Exception → Stash → Prop} (stash : Stash) :
    Triple (fun st => st = stash) InMemoryStashAdapter.getAll
      (fun cs st => Lists cs (fun k => stash.lookup k) ∧ st = stash) E := by
  unfold InMemoryStashAdapter.getAll
  apply Triple.bind (Q := fun a st => a = stash ∧ st = stash) (Triple.read fun st hst => ⟨hst, hst⟩)
  intro a
  apply Triple.of_pure
  intro ha
  subst ha
  apply (iterate_triple (UnorderedMap.toList a)).bind
  intro l
  apply Triple.of_pure
  intro hl
  refine (shuffle_triple l).post fun cs st hst => ⟨⟨?_, fun k d => ?_⟩, hst.2⟩
  · exact (((hst.1.trans hl).map Prod.fst).nodup_iff).2 (UnorderedMap.nodup_keys a)
  · rw [(hst.1.trans hl).mem_iff, UnorderedMap.mem_toList]

theorem getAll_refines :
    Refines L.Sees v (Oram.onStash InMemoryStashAdapter.getAll) (fun cs v' => Lists cs v.stash ∧ v' = v) (L.Fails F) := by
  refine (stash_refines (Q := fun cs stash => stash = v.stash ∧ Lists cs v.stash) (E := fun _ _ => False) ?_
    fun _ _ h => h.elim).post ?_
  · intro w st hst
    refine ((getAll_triple st).post fun cs st' h => ?_) w st rfl
    rw [h.2, hst]
    exact ⟨rfl, h.1⟩
  · rintro cs v' ⟨_, ⟨rfl, h⟩, rfl⟩
    exact ⟨h, rfl⟩

theorem stashGet_refines (block : ℕ) (response : Bytes) :
    Refines L.Sees v (Oram.onStash (InMemoryStashAdapter.get block response))
      (fun r v' => r = (v.stash block).getD [] ++ response ∧ v' = v) (L.Fails F) := by
  refine (stash_refines (Q := fun r stash => stash = v.stash ∧ r = (v.stash block).getD [] ++ response)
    (E := fun _ _ => False) ?_ fun _ _ h => h.elim).post ?_
  · unfold InMemoryStashAdapter.get
    refine Triple.bind (Q := fun a st => a = st ∧ v.stash = fun k => AList.lookup k st)
      (Triple.read fun st hst => ⟨rfl, hst⟩) fun a => ?_
    cases ha : AList.lookup block a with
    | some data =>
      apply Triple.pure
      intro st hst
      obtain ⟨rfl, hst⟩ := hst
      exact ⟨hst.symm, by simp [hst, ha]⟩
    | none =>
      apply Triple.pure
      intro st hst
      obtain ⟨rfl, hst⟩ := hst
      exact ⟨hst.symm, by simp [hst, ha]⟩
  · rintro r v' ⟨_, ⟨rfl, h⟩, rfl⟩
    exact ⟨h, rfl⟩

theorem stashRemove_refines (block : ℕ) :
    Refines L.Sees v (Oram.onStash (InMemoryStashAdapter.remove block))
      (fun _ v' => v' = { v with stash := fun k => if k = block then none else v.stash k }) (L.Fails F) := by
  refine (stash_refines (Q := fun _ stash => stash = fun k => if k = block then none else v.stash k)
    (E := fun _ _ => False) ?_ fun _ _ h => h.elim).post ?_
  · apply Triple.modify
    intro st hst
    funext k
    rw [UnorderedMap.lookup_erase_eq, hst]
  · rintro _ v' ⟨_, rfl, rfl⟩
    rfl

/-- what the stash throws when it is full -/
def IsOverflow (e : Exception) : Prop := ∃ capacity, e = .overCapacity capacity

theorem checkOverflow_triple {P : Stash → Prop} (A : InMemoryStashAdapter) (block : ℕ) :
    Triple P (A.checkOverflow block) (fun _ => P)
      (fun e st => (IsOverflow e ∧ st.size = A.capacity ∧ block ∉ st) ∧ P st) :=
  Triple.bind (Q := fun stash st => stash = st ∧ P st) (Triple.read fun _ hst => ⟨rfl, hst⟩) fun _ =>
    Triple.ite (fun hfull => Triple.throw fun _ hst => ⟨⟨⟨_, rfl⟩, hst.1 ▸ hfull⟩, hst.2⟩) fun _ =>
      Triple.pure fun _ hst => hst.2

/-- as many blocks as the stash may have, and another that is none of them -/
def StashFull (O : Oram β μ) (stash : ℕ → Option Bytes) (block : ℕ) : Prop :=
  stash block = none ∧ ∃ ids : Finset ℕ, ids.card = O.stash.capacity ∧ ∀ id ∈ ids, stash id ≠ none

theorem stashFull_of_size {st : Stash} {block : ℕ} (hsize : st.size = O.stash.capacity) (hnew : block ∉ st) :
    StashFull O (fun k => st.lookup k) block := by
  refine ⟨AList.lookup_eq_none.2 hnew, UnorderedMap.keySet st, (UnorderedMap.card_keySet st).trans hsize, fun id hid => ?_⟩
  obtain ⟨d, hd⟩ := UnorderedMap.mem_iff_lookup.1 (UnorderedMap.mem_keySet.1 hid)
  simp [hd]

/-- the check throws only if the stash is full -/
theorem checkOverflow_full {stash : ℕ → Option Bytes} (block : ℕ) :
    Triple (fun st : Stash => stash = fun k => st.lookup k) (O.stash.checkOverflow block)
      (fun _ st => stash = fun k => st.lookup k)
      (fun e st => (IsOverflow e ∧ StashFull O stash block) ∧ (fun k => st.lookup k) = stash) :=
  (checkOverflow_triple O.stash block).conseq (fun _ hst => hst) (fun _ _ hst => hst)
    fun _ _ hst => ⟨⟨hst.1.1, hst.2 ▸ stashFull_of_size hst.1.2.1 hst.1.2.2⟩, hst.2.symm⟩

/-- it takes more IDs than the stash has room for -/
theorem StashFull.capacity_lt {stash : ℕ → Option Bytes} {block n : ℕ} (h : StashFull O stash block)
    (hids : ∀ k d, stash k = some d → k < n) (hb : block < n) : O.stash.capacity < n := by
  obtain ⟨hnew, ids, hcard, hheld⟩ := h
  have hnot : block ∉ ids := fun hm => hheld block hm hnew
  have hsub : insert block ids ⊆ Finset.range n := by
    intro id hid
    rcases Finset.mem_insert.1 hid with rfl | hid
    · exact Finset.mem_range.2 hb
    · obtain ⟨d, hd⟩ := Option.ne_none_iff_exists'.1 (hheld id hid)
      exact Finset.mem_range.2 (hids id d hd)
  have hle := Finset.card_le_card hsub
  rw [Finset.card_insert_of_notMem hnot, Finset.card_range, hcard] at hle
  exact hle

/-- add a block unless its ID is there -/
def emplaced (stash : ℕ → Option Bytes) (block : ℕ) (data : Bytes) : ℕ → Option Bytes :=
  fun k => if k = block ∧ stash block = none then some data else stash k

theorem stashAdd_refines (block : ℕ) (data : Bytes) :
    Refines L.Sees v (Oram.onStash (O.stash.add block data))
      (fun _ v' => v' = { v with stash := emplaced v.stash block data })
      (L.Fails fun e v' => (IsOverflow e ∧ StashFull O v.stash block) ∧ v' = v) := by
  refine (stash_refines (Q := fun _ stash => stash = emplaced v.stash block data)
    (E := fun e stash => (IsOverflow e ∧ StashFull O v.stash block) ∧ stash = v.stash) ?_ ?_).post ?_
  · refine (checkOverflow_full block).bind fun _ => Triple.modify fun st hst => ?_
    funext k
    rw [UnorderedMap.lookup_emplace, emplaced, hst]
    simp only [← AList.lookup_eq_none]
  · rintro e _ ⟨he, rfl⟩
    exact ⟨he, rfl⟩
  · rintro _ v' ⟨_, rfl, rfl⟩
    rfl

theorem stashUpdate_refines (block : ℕ) (data : Bytes) :
    Refines L.Sees v (Oram.onStash (O.stash.update block data))
      (fun _ v' => v' = { v with stash := Function.update v.stash block (some data) })
      (L.Fails fun e v' => (IsOverflow e ∧ StashFull O v.stash block) ∧ v' = v) := by
  refine (stash_refines (Q := fun _ stash => stash = Function.update v.stash block (some data))
    (E := fun e stash => (IsOverflow e ∧ StashFull O v.stash block) ∧ stash = v.stash) ?_ ?_).post ?_
  · refine (checkOverflow_full block).bind fun _ => Triple.modify fun st hst => ?_
    funext k
    rw [UnorderedMap.lookup_insert_eq, hst, Function.update_apply]
  · rintro e _ ⟨he, rfl⟩
    exact ⟨he, rfl⟩
  · rintro _ v' ⟨_, rfl, rfl⟩
    rfl

end LawfulOram

end PathOram
