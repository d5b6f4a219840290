/-
An outline of an ORAM: its positions, the locations in its cache, and the record of its calls of the storage.

This is what decides which buckets a call asks for, and it needs less than a `View`: payloads may be of any size, the
blocks may be anywhere and in any number, as long as their IDs are the ORAM's own. `Outlines` is the relation of outlines
and states. Each primitive is a step between outlines, and whatever throws leaves an outline, unless the map throws.

- `access_outlined`: **an access** downloads the part of its path that is not cached, and its path is cached afterwards.
- `syncCache_outlined`: **an upload** writes what is cached by one call, and nothing is cached afterwards.
- `multiple_outlined`: a batch is a download of the union of its paths, its accesses and an upload.
- `construct_outlined`, `run_outlined`, `attempts_outlined`: the states of an initialised ORAM have outlines.
-/
import PathOram.Failures

namespace PathOram

open Lib

/-! ## Checked requests -/

namespace StorageAdapter

variable {β : Type} {S : StorageAdapter β} {L : LawfulBackend S.backend S.capacity S.blockSize} {f : ℕ → Bytes}
  {calls : List StorageCall} {own : ℕ → Prop}

/-- every stored bucket decodes, and the IDs of its blocks are own ones -/
def Decodes (S : StorageAdapter β) (own : ℕ → Prop) (f : ℕ → Bytes) : Prop :=
  ∀ ℓ < S.capacity, ∃ b, S.decodeBucket (f ℓ) = .ok b ∧ b.length = S.Z ∧ ∀ x ∈ b, own x.1

/-- a request is encoded or rejected -/
theorem encodeRequest_checked (hc : S.crypto.Lawful) {P : StorageState β → Prop} {r : ℕ × Bucket}
    (hid : ∀ x ∈ r.2, x.1 < 2 ^ 64) :
    Triple P (S.encodeRequest r) (fun w s => P s ∧ r.1 < S.capacity ∧ r.2.length = S.Z ∧ Encodes S r w) (fun _ => P) := by
  by_cases h : S.Accepts r
  · exact (encodeRequest_triple hc h).post fun w s hs => ⟨hs.1, h.location_lt, h.length_eq, hs.2⟩
  · unfold encodeRequest
    refine Triple.bind (Q := fun _ s => r.1 < S.capacity ∧ P s) (Triple.ite (fun _ => Triple.throw fun _ hs => hs)
      fun hlt => Triple.pure fun _ hs => ⟨not_le.1 hlt, hs⟩) fun _ => Triple.of_pure fun hlt => ?_
    refine Triple.ite (fun _ => Triple.throw fun _ hs => hs) fun hlen => ?_
    -- a payload is too long, so its record is not made
    have hblock : ∀ b ∈ r.2, Triple P (S.encodeBlock b) (fun _ s => P s ∧ b.2.length ≤ S.userBlockSize) (fun _ => P) :=
      fun b _ => Triple.bind (Q := fun _ s => P s ∧ b.2.length ≤ S.userBlockSize)
        (Triple.ite (fun _ => Triple.throw fun _ hs => hs) fun hle => Triple.pure fun _ hs => ⟨hs, not_lt.1 hle⟩)
        fun _ => Triple.pure fun _ hs => hs
    apply (Triple.mapM (R := fun b _ => b.2.length ≤ S.userBlockSize) hblock).bind
    intro records
    rintro w s ⟨-, hall⟩
    refine absurd ⟨hlt, not_not.1 hlen, fun b hb => ?_, hid⟩ h
    obtain ⟨_, -, hle⟩ := exists_of_mem_right hall.flip hb
    exact hle

/-- **`set` on requests that may be rejected.** If it throws, some of the requests were written, each whole. -/
theorem set_checked (hc : S.crypto.Lawful) {requests : List (ℕ × Bucket)} (hid : ∀ r ∈ requests, ∀ x ∈ r.2, x.1 < 2 ^ 64) :
    Triple (RawIs L f calls) (S.set requests)
      (fun _ s => ∃ writes, List.Forall₂ (fun r w => r.2.length = S.Z ∧ Encodes S r w) requests writes ∧
        RawIs L (writeAll f writes) (calls ++ [.set writes]) s)
      (fun _ s => ∃ done calls', (∀ w ∈ done, ∃ r ∈ requests, r.2.length = S.Z ∧ Encodes S r w) ∧
        RawIs L (writeAll f done) calls' s) := by
  unfold set
  refine ((Triple.mapM (R := fun r w => r.1 < S.capacity ∧ r.2.length = S.Z ∧ Encodes S r w)
    fun r hm => encodeRequest_checked hc (hid r hm)).conseq (fun _ hs => hs) (fun _ _ hs => hs)
    fun _ s hs => ⟨[], calls, by simp, hs⟩).bind fun writes => ?_
  refine Triple.pre (P := fun s' => List.Forall₂ (fun r w => r.1 < S.capacity ∧ r.2.length = S.Z ∧ Encodes S r w)
    requests writes ∧ RawIs L f calls s') (Triple.of_pure fun henc => ?_) fun s' hs' => ⟨hs'.2, hs'.1⟩
  have hfits : ∀ w ∈ writes, Fits S w := fun w hw => by
    obtain ⟨r, -, hlt, -, hrw⟩ := exists_of_mem_right henc hw
    exact ⟨hrw.1 ▸ hlt, hrw.2.1⟩
  refine (logCall_triple (.set writes)).bind fun _ => (upload_triple hfits).conseq (fun _ hs' => hs') ?_ ?_
  · exact fun _ s' hs' => ⟨writes, henc.imp fun _ _ h => h.2, hs'⟩
  · rintro e s' ⟨-, done, hd, hs'⟩
    refine ⟨done, _, fun w hw => ?_, hs'⟩
    obtain ⟨r, hr, -, hrw⟩ := exists_of_mem_right henc (hd.subset hw)
    exact ⟨r, hr, hrw⟩

/-- buckets of own blocks leave a storage of own blocks -/
theorem Decodes.writeAll (h : Decodes S own f) {requests : List (ℕ × Bucket)}
    (hown : ∀ r ∈ requests, ∀ x ∈ r.2, own x.1) {writes : List (ℕ × Bytes)}
    (hw : ∀ w ∈ writes, ∃ r ∈ requests, r.2.length = S.Z ∧ Encodes S r w) : Decodes S own (PathOram.writeAll f writes) := by
  induction writes generalizing f with
  | nil => exact h
  | cons w writes ih =>
    refine ih (f := Function.update f w.1 w.2) (fun ℓ hℓ => ?_) fun w' hm => hw w' (List.mem_cons_of_mem _ hm)
    obtain ⟨r, hr, hlen, -, -, hdec⟩ := hw w List.mem_cons_self
    rw [Function.update_apply]
    split_ifs
    · refine ⟨_, hdec, by rw [length_stored, hlen], fun x hx => ?_⟩
      obtain ⟨y, hy, rfl⟩ := List.mem_map.1 hx
      exact hown r hr y hy
    · exact h ℓ hℓ

/-- what is left of a range keeps its locations and the IDs of its blocks -/
theorem padRange_ids (range : List (ℕ × Bucket)) :
    List.Forall₂ (fun r r' => r'.1 = r.1 ∧ r'.2.map Prod.fst = r.2.map Prod.fst) range (S.padRange range) := by
  have hbucket : ∀ b : Bucket, (S.padBucket b).map Prod.fst = b.map Prod.fst := by
    intro b
    induction b with
    | nil => rfl
    | cons x b ih =>
      rw [padBucket]
      split_ifs
      · rfl
      · rw [List.map_cons, ih, List.map_cons]
  have hrefl : ∀ l : List (ℕ × Bucket),
      List.Forall₂ (fun r r' => r'.1 = r.1 ∧ r'.2.map Prod.fst = r.2.map Prod.fst) l l := fun l =>
    List.forall₂_same.2 fun r _ => ⟨rfl, rfl⟩
  induction range with
  | nil => exact List.Forall₂.nil
  | cons r range ih =>
    rw [padRange]
    split_ifs
    · exact hrefl _
    · exact List.Forall₂.cons ⟨rfl, hbucket r.2⟩ (hrefl range)
    · exact List.Forall₂.cons ⟨rfl, hbucket r.2⟩ ih

end StorageAdapter

/-! ## Outlines -/

/-- what decides which buckets a call asks for -/
structure Outline where
  pos : ℕ → ℕ
  cached : ℕ → Bool
  calls : List StorageCall

namespace Outline

/-- the locations are cached -/
def caching (o : Outline) (locations : List ℕ) : Outline := { o with cached := fun ℓ => o.cached ℓ || decide (ℓ ∈ locations) }

/-- the locations are cached, those that were not by one download -/
def Fetched (o : Outline) (locations : List ℕ) (o' : Outline) : Prop :=
  ∃ missing, missing.Perm (locations.filter fun ℓ => !o.cached ℓ) ∧
    o' = { o.caching locations with calls := o.calls ++ LawfulOram.getCalls missing }

/-- what is cached is uploaded by one call, and the cache is empty -/
def Uploaded (o o' : Outline) : Prop :=
  ∃ writes, (writes.map Prod.fst).Nodup ∧ (∀ ℓ, ℓ ∈ writes.map Prod.fst ↔ o.cached ℓ = true) ∧
    o' = { o with cached := fun _ => false, calls := o.calls ++ [.set writes] }

/-- the accesses of a batch in turn: the IDs, the leaves drawn for them, and the outline reached -/
inductive Accesses (height : ℕ) : Outline → List ℕ → List ℕ → Outline → Prop
  | nil (o : Outline) : Accesses height o [] [] o
  | cons {o o₁ o₂ : Outline} {id leaf : ℕ} {ids leaves : List ℕ} : leaf < 2 ^ (height - 1) →
      { o with pos := Function.update o.pos id leaf }.Fetched (path height (o.pos id)) o₁ →
      Accesses height o₁ ids leaves o₂ → Accesses height o (id :: ids) (leaf :: leaves) o₂

/-- the union of the paths of the IDs -/
def IsUnion (height : ℕ) (o : Outline) (ids locations : List ℕ) : Prop :=
  locations.Nodup ∧ ∀ ℓ, ℓ ∈ locations ↔ ∃ id ∈ ids, ℓ ∈ path height (o.pos id)

/-- a batch: the paths of its blocks are cached, then it makes its accesses and an upload -/
def Batched (height : ℕ) (o : Outline) (ids leaves : List ℕ) (o' : Outline) : Prop :=
  ∃ locations o₁ o₂, IsUnion height o ids locations ∧ o.Fetched locations o₁ ∧ Accesses height o₁ ids leaves o₂ ∧
    o₂.Uploaded o'

end Outline

/-- the ID of an empty block or of a block of the ORAM -/
def Oram.OwnId {β μ : Type} (O : Oram β μ) (id : ℕ) : Prop := id = ulongMax ∨ id < 2 ^ O.height * O.Z

namespace LawfulOram

variable {β μ : Type} {O : Oram β μ} (L : LawfulOram O)

structure Outlines (o : Outline) (s : OramState β μ) : Prop where
  map : ∃ mapCalls, L.map.Knows o.pos mapCalls s.map
  pos_lt : ∀ i < 2 ^ O.height * O.Z, o.pos i < 2 ^ (O.height - 1)
  stash_id : ∀ k ∈ s.stash, k < 2 ^ O.height * O.Z
  cache_lt : ∀ ℓ ∈ s.cache, ℓ < O.storage.capacity
  cache_id : ∀ ℓ b, s.cache.lookup ℓ = some b → ∀ x ∈ b, O.OwnId x.1
  storage_id : StorageAdapter.Decodes O.storage O.OwnId (L.storage.raw s.storage.backend)
  cached : o.cached = fun ℓ => decide (ℓ ∈ s.cache)
  calls : o.calls = s.storage.calls

/-- the map threw, or the state reached has an outline -/
def Stopped (e : Exception) (s : OramState β μ) : Prop := L.map.err e ∨ ∃ o, L.Outlines o s

variable {L} {o : Outline}

theorem Outlines.stopped {s : OramState β μ} (h : L.Outlines o s) (e : Exception) : L.Stopped e s := Or.inr ⟨o, h⟩

theorem own_lt (L : LawfulOram O) {id : ℕ} (h : O.OwnId id) : id < 2 ^ 64 := by
  rcases h with rfl | h
  · norm_num [ulongMax]
  · exact h.trans L.blocks_lt

/-! ## Positions -/

theorem mapGet_outlined {i : ℕ} (hi : i < 2 ^ O.height * O.Z) :
    Refines L.Outlines o (Oram.onMap (O.map.get i)) (fun r o' => r = o.pos i ∧ o' = o) L.Stopped := by
  intro w s hs
  obtain ⟨mapCalls, hmap⟩ := hs.map
  have hz := Triple.zoom (OramState.mapLens β μ) (L.map.get_knows o.pos mapCalls hi) s w s ⟨rfl, hmap⟩
  unfold Oram.onMap
  rcases hr : (Prog.zoom (OramState.mapLens β μ) (O.map.get i)).exec w s with ⟨e | a, w', s'⟩
  · rw [hr] at hz
    obtain ⟨t, rfl, he⟩ := hz
    exact Or.inl he
  · rw [hr] at hz
    obtain ⟨t, rfl, ha, ht⟩ := hz
    exact ⟨o, ⟨ha, rfl⟩, { hs with map := ⟨_, ht⟩ }⟩

theorem mapSet_outlined {i leaf : ℕ} (hi : i < 2 ^ O.height * O.Z) (hl : leaf < 2 ^ (O.height - 1)) :
    Refines L.Outlines o (Oram.onMap (O.map.set i leaf))
      (fun _ o' => o' = { o with pos := Function.update o.pos i leaf }) L.Stopped := by
  intro w s hs
  obtain ⟨mapCalls, hmap⟩ := hs.map
  have hl64 : leaf < 2 ^ 64 := hl.trans_le (L.leaves_le.trans (by norm_num))
  have hz := Triple.zoom (OramState.mapLens β μ) (L.map.set_knows o.pos mapCalls hi hl64) s w s ⟨rfl, hmap⟩
  unfold Oram.onMap
  rcases hr : (Prog.zoom (OramState.mapLens β μ) (O.map.set i leaf)).exec w s with ⟨e | a, w', s'⟩
  · rw [hr] at hz
    obtain ⟨t, rfl, he⟩ := hz
    exact Or.inl he
  · rw [hr] at hz
    obtain ⟨t, rfl, ht⟩ := hz
    refine ⟨_, rfl, { hs with map := ⟨_, ht⟩, pos_lt := fun j hj => ?_ }⟩
    change Function.update o.pos i leaf j < _
    rw [Function.update_apply]
    split_ifs
    · exact hl
    · exact hs.pos_lt j hj

theorem remap_outlined (L : LawfulOram O) {block : ℕ} (hb : block < 2 ^ O.height * O.Z) :
    Refines L.Outlines o (O.remap block)
      (fun previousPosition o' => previousPosition = o.pos block ∧
        ∃ leaf < 2 ^ (O.height - 1), o' = { o with pos := Function.update o.pos block leaf }) L.Stopped := by
  unfold Oram.remap
  refine (mapGet_outlined hb).bind fun p o₁ ⟨hp, ho₁⟩ => ?_
  subst hp
  subst o₁
  have hdraw : Refines L.Outlines o (getRandomULong (shlOne (O.height - 1)) : Run (OramState β μ) ℕ)
      (fun leaf o' => leaf < 2 ^ (O.height - 1) ∧ o' = o) L.Stopped := by
    rw [L.shlOne_eq]
    exact (getRandomULong_triple (Nat.two_pow_pos _)).post fun leaf s hs => ⟨o, ⟨hs.1, rfl⟩, hs.2⟩
  refine hdraw.bind fun leaf o₂ ⟨hleaf, ho₂⟩ => ?_
  subst o₂
  exact (mapSet_outlined hb hleaf).bind fun _ o₃ ho₃ => Refines.pure ⟨rfl, leaf, hleaf, ho₃⟩

/-! ## Downloads -/

theorem getCache_outlined {locations : List ℕ} (dryRun : Bool) (hl : ∀ ℓ ∈ locations, ℓ < O.storage.capacity)
    (hn : locations.length < 2 ^ 32) :
    Refines L.Outlines o (O.getCache locations dryRun)
      (fun r o' => o.Fetched locations o' ∧ ∀ x ∈ r, O.OwnId x.1) L.Stopped := by
  intro w s hs
  choose! g hdec hlen hown using hs.storage_id
  suffices h : Triple (fun s' => s' = s) (O.getCache locations dryRun)
      (fun r s' => ∃ o', (o.Fetched locations o' ∧ ∀ x ∈ r, O.OwnId x.1) ∧ L.Outlines o' s') L.Stopped from h w s rfl
  unfold Oram.getCache
  apply Triple.bind (Q := fun a s' => a = s ∧ s' = s) (Triple.read fun s' h => ⟨h, h⟩)
  intro a
  apply Triple.of_pure
  intro ha
  subst ha
  apply (iterate_triple locations).bind
  intro order
  apply Triple.of_pure
  intro horder
  change Triple _ (if 0 < (missing a.cache order).length then _ else _) _ _
  have hmem : ∀ ℓ, ℓ ∈ missing a.cache order ↔ ℓ ∈ locations ∧ ℓ ∉ a.cache := fun ℓ => by
    rw [mem_missing, horder.mem_iff]
  have hlt : ∀ ℓ ∈ missing a.cache order, ℓ < O.storage.capacity := fun ℓ hℓ => hl ℓ ((hmem ℓ).1 hℓ).1
  have hmiss : (missing a.cache order).Perm (locations.filter fun ℓ => !o.cached ℓ) := by
    have hf : (fun ℓ => !o.cached ℓ) = fun ℓ => decide (ℓ ∉ a.cache) := by
      funext ℓ
      rw [hs.cached, decide_not]
    rw [hf]
    exact horder.filter _
  have hresponse : ∀ x ∈ order.foldl (fun response ℓ => (a.cache.lookup ℓ).getD [] ++ response) [], O.OwnId x.1 := by
    intro x hx
    obtain ⟨ℓ, -, hx⟩ := (mem_cachedResponse (fun ℓ => (a.cache.lookup ℓ).getD []) order x).1 hx
    cases hb : a.cache.lookup ℓ with
    | none => simp [hb] at hx
    | some b => exact hs.cache_id ℓ b hb x (by simpa [hb] using hx)
  refine Triple.ite (fun hpos => ?_) (fun hzero => ?_)
  · have hget : Triple (StorageAdapter.RawIs L.storage (L.storage.raw a.storage.backend) o.calls)
        (O.storage.get (missing a.cache order)) _ _ :=
      StorageAdapter.get_decodes (g := g) hlt
        (StorageAdapter.ends_of_lt ((length_missing_le _ _).trans_lt (horder.length_eq ▸ hn)))
        fun ℓ hℓ => hdec ℓ (hlt ℓ hℓ)
    refine Triple.bind ((Triple.zoom (OramState.storageLens β μ) hget a).conseq
      (fun s' h => ⟨h, by rw [h]; exact ⟨rfl, hs.calls.symm⟩⟩) (fun _ _ h => h) ?_) fun downloaded => Triple.exists_pre fun t => ?_
    · rintro e s' ⟨t, rfl, -, hraw, hcalls⟩
      refine Or.inr ⟨{ o with calls := t.calls }, { hs with storage_id := ?_, calls := rfl }⟩
      change StorageAdapter.Decodes O.storage O.OwnId (L.storage.raw t.backend)
      rw [hraw]
      exact hs.storage_id
    · refine Triple.bind (Q := fun _ s' => ∃ o', (o.Fetched locations o' ∧
        downloaded = (missing a.cache order).flatMap g) ∧ L.Outlines o' s') (Triple.modify ?_) fun _ => Triple.pure ?_
      · rintro s' ⟨rfl, hd, hraw, hcalls⟩
        have hcut : O.cacheDownloaded (missing a.cache order) downloaded 0 [] a.cache =
            a.cache.assignAll ((missing a.cache order).map fun ℓ => (ℓ, g ℓ)) := by
          have hZ : ∀ ℓ ∈ missing a.cache order, (g ℓ).length = O.Z := fun ℓ hℓ => L.Z_eq ▸ hlen ℓ (hlt ℓ hℓ)
          have := cacheDownloaded_eq L.Z_pos (missing a.cache order) 0 a.cache hZ
          simpa [hd] using this
        have hkeys : ∀ ℓ, ℓ ∈ O.cacheDownloaded (missing a.cache order) downloaded 0 [] a.cache ↔
            ℓ ∈ a.cache ∨ ℓ ∈ missing a.cache order := fun ℓ => by
          rw [hcut, UnorderedMap.mem_assignAll, List.map_map]
          simp
        refine ⟨_, ⟨⟨missing a.cache order, hmiss, rfl⟩, hd⟩,
          { hs with cache_lt := fun ℓ hℓ => ?_, cache_id := fun ℓ b hb => ?_, storage_id := ?_, cached := ?_, calls := ?_ }⟩
        · exact ((hkeys ℓ).1 hℓ).elim (hs.cache_lt ℓ) (hlt ℓ)
        · change AList.lookup ℓ (O.cacheDownloaded (missing a.cache order) downloaded 0 [] a.cache) = some b at hb
          rw [hcut, lookup_assignAll_map] at hb
          split_ifs at hb with hm
          · cases hb
            exact hown ℓ (hlt ℓ hm)
          · exact hs.cache_id ℓ b hb
        · change StorageAdapter.Decodes O.storage O.OwnId (L.storage.raw t.backend)
          rw [hraw]
          exact hs.storage_id
        · funext ℓ
          change (o.cached ℓ || decide (ℓ ∈ locations)) =
            decide (ℓ ∈ O.cacheDownloaded (missing a.cache order) downloaded 0 [] a.cache)
          rw [hs.cached, ← Bool.decide_or, decide_eq_decide, hkeys, hmem]
          tauto
        · obtain ⟨b, rest, hcons⟩ := List.exists_cons_of_length_pos hpos
          rw [hcons] at hcalls ⊢
          exact hcalls.symm
      · rintro s' ⟨o', ⟨ho', hd⟩, hs'⟩
        refine ⟨o', ⟨ho', fun x hx => ?_⟩, hs'⟩
        cases dryRun with
        | true => simp at hx
        | false =>
          rcases List.mem_append.1 hx with hx | hx
          · exact hresponse x hx
          · rw [hd, List.mem_flatMap] at hx
            obtain ⟨ℓ, hℓ, hx⟩ := hx
            exact hown ℓ (hlt ℓ hℓ) x hx
  · have hnil : missing a.cache order = [] := List.eq_nil_of_length_eq_zero (by omega)
    refine Triple.pure ?_
    rintro s' rfl
    refine ⟨_, ⟨⟨missing s'.cache order, hmiss, rfl⟩, fun x hx => ?_⟩, { hs with cached := ?_, calls := ?_ }⟩
    · cases dryRun with
      | true => simp at hx
      | false => exact hresponse x hx
    · funext ℓ
      have hnone := (hmem ℓ).not.1 (by simp [hnil])
      change (o.cached ℓ || decide (ℓ ∈ locations)) = decide (ℓ ∈ s'.cache)
      rw [hs.cached, ← Bool.decide_or, decide_eq_decide]
      tauto
    · rw [hnil]
      simpa [getCalls] using hs.calls

/-- reading a path -/
theorem readPath_outlined {leaf : ℕ} (hf : leaf < 2 ^ (O.height - 1)) :
    Refines L.Outlines o (O.readPath leaf [] true) (fun _ o' => o.Fetched (path O.height leaf) o') L.Stopped := by
  have hperm := L.pathLocations_perm hf
  unfold Oram.readPath
  refine Triple.ite (fun _ => ?_) (fun h => absurd rfl h)
  refine (getCache_outlined false (fun ℓ hℓ => L.mem_path_capacity hf (hperm.mem_iff.1 hℓ))
    (L.pathLocations_length hf)).bind ?_
  rintro blocks o' ⟨⟨missing, hmissing, rfl⟩, hown⟩
  have hsame : o.caching (O.pathLocations leaf []) = o.caching (path O.height leaf) := by
    simp only [Outline.caching, hperm.mem_iff]
  rw [hsame]
  have hadd : ∀ o', Triple (L.Outlines o') (O.addBlocks blocks) (fun _ => L.Outlines o') L.Stopped := by
    intro o'
    refine Triple.forM (fun _ => L.Outlines o') fun b rest hb => Triple.ite (fun hne => ?_) fun _ => Triple.pure fun _ hs => hs
    intro w s hs
    have hid := (hown b (hb.subset List.mem_cons_self)).resolve_left hne
    rw [exec_stashAdd]
    split_ifs
    · exact hs.stopped _
    · refine { hs with stash_id := fun k hk => ?_ }
      rcases UnorderedMap.mem_emplace.1 hk with rfl | hk
      · exact hid
      · exact hs.stash_id k hk
  exact (hadd _).bind fun _ => Triple.pure fun s hs => ⟨_, ⟨missing, hmissing.trans (hperm.filter _), rfl⟩, hs⟩

/-! ## Evictions -/

/-- the stash takes a write -/
theorem stashUpdate_outlined {block : ℕ} (hb : block < 2 ^ O.height * O.Z) (data : Bytes) :
    Triple (L.Outlines o) (Oram.onStash (O.stash.update block data)) (fun _ => L.Outlines o) L.Stopped := by
  intro w s hs
  have h : Triple (fun st : Stash => ∀ k ∈ st, k < 2 ^ O.height * O.Z) (O.stash.update block data)
      (fun _ st => ∀ k ∈ st, k < 2 ^ O.height * O.Z) (fun _ st => ∀ k ∈ st, k < 2 ^ O.height * O.Z) := by
    apply Triple.bind ((checkOverflow_triple O.stash block).conseq (fun _ h => h) (fun _ _ h => h) fun _ _ h => h.2)
    intro _
    apply Triple.modify
    intro st hst k hk
    rcases (AList.mem_insert _).1 hk with rfl | hk
    · exact hb
    · exact hst k hk
  have hz := Triple.zoom (OramState.stashLens β μ) h s w s ⟨rfl, hs.stash_id⟩
  unfold Oram.onStash
  rcases hr : (Prog.zoom (OramState.stashLens β μ) (O.stash.update block data)).exec w s with ⟨e | a, w', s'⟩
  · rw [hr] at hz
    obtain ⟨t, rfl, ht⟩ := hz
    exact Or.inr ⟨o, { hs with stash_id := ht }⟩
  · rw [hr] at hz
    obtain ⟨t, rfl, ht⟩ := hz
    exact { hs with stash_id := ht }

/-- reading the map does not touch the rest of the state -/
theorem mapGet_reads (s₀ : OramState β μ) (v : View) (i : ℕ) (hi : i < 2 ^ O.height * O.Z) :
    Refines (fun v s => L.map.Knows v.pos v.mapCalls s.map ∧ ∃ m, s = { s₀ with map := m }) v (Oram.onMap (O.map.get i))
      (fun r v' => r = v.pos i ∧ v' = { v with mapCalls := v.mapCalls ++ [.get i (v.pos i)] }) (fun e _ => L.map.err e) := by
  rintro w _ ⟨hmap, m, rfl⟩
  have hz := Triple.zoom (OramState.mapLens β μ) (L.map.get_knows v.pos v.mapCalls hi) { s₀ with map := m } w _ ⟨rfl, hmap⟩
  unfold Oram.onMap
  rcases hr : (Prog.zoom (OramState.mapLens β μ) (O.map.get i)).exec w { s₀ with map := m } with ⟨e | a, w', s'⟩
  · rw [hr] at hz
    obtain ⟨t, rfl, he⟩ := hz
    exact he
  · rw [hr] at hz
    obtain ⟨t, rfl, ha, ht⟩ := hz
    exact ⟨_, ⟨ha, rfl⟩, ht, t, rfl⟩

/-- the eviction -/
theorem writePath_outlined {leaf : ℕ} (hf : leaf < 2 ^ (O.height - 1)) :
    Refines L.Outlines o (O.writePath leaf)
      (fun _ o' => o' = o.caching (path O.height leaf)) L.Stopped := by
  intro w s hs
  suffices h : Triple (fun s' => s' = s) (O.writePath leaf)
      (fun _ => L.Outlines (o.caching (path O.height leaf))) L.Stopped from by
    refine (h.post fun _ s' hs' => ?_) w s rfl
    exact ⟨_, rfl, hs'⟩
  obtain ⟨mapCalls, hmap⟩ := hs.map
  unfold Oram.writePath
  refine Triple.bind (Q := fun cs s' => Lists cs (fun k => s.stash.lookup k) ∧ s' = s) ?_ fun cs => Triple.of_pure fun hcs => ?_
  · refine (Triple.zoom (OramState.stashLens β μ) (getAll_triple (E := fun _ _ => False) s.stash) s).conseq
      (fun s' h => ⟨h, by rw [h]; rfl⟩) ?_ fun _ _ ⟨_, _, h⟩ => h.elim
    rintro cs s' ⟨t, rfl, h, rfl⟩
    exact ⟨h, rfl⟩
  have hknown : ∀ b ∈ cs, b.1 < 2 ^ O.height * O.Z := fun b hb =>
    hs.stash_id b.1 (UnorderedMap.mem_iff_lookup.2 ⟨b.2, (hcs.2 b.1 b.2).1 hb⟩)
  have hlevels : Refines _ (View.mk o.pos (fun _ => none) (fun _ => []) o.cached mapCalls o.calls)
      (O.writeLevels leaf O.height ⟨cs, [], []⟩) _ _ :=
    writeLevels_refines O (mapGet_reads (L := L) s) L.Z_pos O.height ⟨cs, [], []⟩ hknown
  refine (Triple.conseq hlevels (fun s' h => ?_) (fun _ _ h => h) fun _ _ h => Or.inl h).bind fun e => ?_
  · rw [h]
    exact ⟨hmap, s.map, rfl⟩
  apply Triple.exists_pre
  intro v
  apply Triple.of_pure
  intro hv
  obtain ⟨⟨-, -, buckets, hreq, hbuckets⟩, rfl⟩ := hv
  rw [List.nil_append] at hreq
  have hfst : e.requests.map Prod.fst = (path O.height leaf).reverse := hreq ▸ requests_fst O L.height_le hf hbuckets
  have hmem : ∀ ℓ, ℓ ∈ e.requests.map Prod.fst ↔ ℓ ∈ path O.height leaf := fun ℓ => by rw [hfst, List.mem_reverse]
  have hnodup : (e.requests.map Prod.fst).Nodup := by
    rw [hfst, List.nodup_reverse]
    exact path_nodup hf
  -- the buckets hold blocks of the stash and dummies
  have hown : ∀ r ∈ e.requests, ∀ x ∈ r.2, O.OwnId x.1 := by
    intro r hr x hx
    rw [hreq] at hr
    obtain ⟨y, hy, -, dummies, hb, -, hd⟩ := exists_of_mem_right hbuckets hr
    rw [hb, List.mem_append, List.mem_reverse] at hx
    rcases hx with hx | hx
    · refine Or.inr (hknown x ?_)
      exact (evict_perm _ _ _ _).subset (List.mem_append_left _ (List.mem_flatMap.2 ⟨y, hy, hx⟩))
    · exact Or.inl (hd x hx).1
  refine Triple.bind (Q := fun _ => L.Outlines (o.caching (path O.height leaf)))
    (Triple.modify ?_) fun _ => ?_
  · rintro _ ⟨hknows, m, rfl⟩
    refine { hs with map := ⟨_, hknows⟩, cache_lt := fun ℓ hℓ => ?_, cache_id := fun ℓ b hb => ?_, cached := ?_ }
    · rcases UnorderedMap.mem_assignAll.1 hℓ with hc | hp
      · exact hs.cache_lt ℓ hc
      · exact L.mem_path_capacity hf ((hmem ℓ).1 hp)
    · change AList.lookup ℓ (s.cache.assignAll e.requests) = some b at hb
      by_cases hp : ℓ ∈ e.requests.map Prod.fst
      · obtain ⟨r, hr, rfl⟩ := List.mem_map.1 hp
        rw [UnorderedMap.lookup_assignAll_of_mem _ _ hnodup hr] at hb
        cases hb
        exact hown r hr
      · rw [UnorderedMap.lookup_assignAll_of_notMem _ _ _ hp] at hb
        exact hs.cache_id ℓ b hb
    · funext ℓ
      change (o.cached ℓ || decide (ℓ ∈ path O.height leaf)) = decide (ℓ ∈ s.cache.assignAll e.requests)
      rw [hs.cached, ← Bool.decide_or, decide_eq_decide, UnorderedMap.mem_assignAll, hmem]
  · apply Triple.forM (fun _ => L.Outlines (o.caching (path O.height leaf)))
    intro removed _ _ w s hs
    refine { hs with stash_id := fun k hk => hs.stash_id k ?_ }
    exact (AList.mem_erase.1 hk).2

/-- **An access** reads the path of its block, and remaps the block. -/
theorem access_outlined (L : LawfulOram O) (o : Outline) {block : ℕ} (hb : block < 2 ^ O.height * O.Z) (read : Bool)
    (data response : Bytes) :
    Refines L.Outlines o (O.access read block data response)
      (fun _ o' => ∃ leaf < 2 ^ (O.height - 1),
        { o with pos := Function.update o.pos block leaf }.Fetched (path O.height (o.pos block)) o') L.Stopped := by
  apply Refines.assume (fun s hs => hs.pos_lt block hb)
  intro ho
  rw [access_eq]
  refine (remap_outlined L hb).bind ?_
  rintro _ o₁ ⟨rfl, leaf, hleaf, rfl⟩
  refine (readPath_outlined ho).bind ?_
  rintro _ o₂ ⟨missing, hmissing, rfl⟩
  have hrest : ∀ o' : Outline, Refines L.Outlines o' (do
        let response ← Oram.onStash (InMemoryStashAdapter.get block response)
        O.writePath (o.pos block)
        return response)
      (fun _ o'' => o'' = o'.caching (path O.height (o.pos block))) L.Stopped := by
    intro o'
    have hget : Triple (L.Outlines o') (Oram.onStash (InMemoryStashAdapter.get block response)) (fun _ => L.Outlines o')
        L.Stopped := by
      intro w s hs
      have h : Triple (fun st : Stash => st = s.stash) (InMemoryStashAdapter.get block response)
          (fun _ st => st = s.stash) (fun _ _ => False) := by
        apply Triple.bind (Q := fun _ st => st = s.stash) (Triple.read fun _ h => h)
        intro a
        cases a.lookup block with
        | some d => exact Triple.pure fun _ h => h
        | none => exact Triple.pure fun _ h => h
      have hz := Triple.zoom (OramState.stashLens β μ) h s w s ⟨rfl, rfl⟩
      unfold Oram.onStash
      rcases hr : (Prog.zoom (OramState.stashLens β μ) (InMemoryStashAdapter.get block response)).exec w s with ⟨e | a, w', s'⟩
      · rw [hr] at hz
        obtain ⟨t, -, h⟩ := hz
        exact h.elim
      · rw [hr] at hz
        obtain ⟨t, rfl, rfl⟩ := hz
        exact hs
    exact hget.bind fun r => (writePath_outlined ho).bind fun _ _ h => Refines.pure h
  have hfinish : ∀ o', Refines L.Outlines o' (O.finishAccess read block data response (o.pos block))
      (fun _ o'' => o'' = o'.caching (path O.height (o.pos block))) L.Stopped := fun o' =>
    Triple.ite (fun _ => (stashUpdate_outlined hb data).bind fun _ => hrest o') fun _ => hrest o'
  refine (hfinish _).post fun _ o'' ho'' => ⟨leaf, hleaf, missing, hmissing, ?_⟩
  rw [ho'']
  simp only [Outline.caching, Bool.or_assoc, Bool.or_self]

/-! ## Uploads -/

/-- **An upload** writes what is cached by one call. -/
theorem syncCache_outlined (L : LawfulOram O) (o : Outline) :
    Refines L.Outlines o O.syncCache (fun _ o' => o.Uploaded o') L.Stopped := by
  intro w s hs
  suffices h : Triple (fun s' => s' = s) O.syncCache (fun _ s' => ∃ o', o.Uploaded o' ∧ L.Outlines o' s') L.Stopped from
    h w s rfl
  unfold Oram.syncCache
  apply Triple.bind (Q := fun a s' => a = s ∧ s' = s) (Triple.read fun s' h => ⟨h, h⟩)
  intro a
  apply Triple.of_pure
  intro ha
  subst ha
  apply (iterate_triple a.cache.toList).bind
  intro range
  apply Triple.of_pure
  intro hr
  have hkeys : (range.map Prod.fst).Nodup := ((hr.map Prod.fst).nodup_iff).2 a.cache.nodup_keys
  have hown : ∀ r ∈ range, ∀ x ∈ r.2, O.OwnId x.1 := fun r hm =>
    hs.cache_id r.1 r.2 (UnorderedMap.mem_toList.1 (hr.mem_iff.1 hm))
  have hpad := StorageAdapter.padRange_ids (S := O.storage) range
  have hpadkeys : (O.storage.padRange range).map Prod.fst = range.map Prod.fst := by
    rw [← List.forall₂_eq_eq_eq, List.forall₂_map_left_iff, List.forall₂_map_right_iff]
    exact hpad.flip.imp fun _ _ h => h.1
  have hpadown : ∀ r ∈ O.storage.padRange range, ∀ x ∈ r.2, O.OwnId x.1 := fun r hm x hx => by
    obtain ⟨r', hr', -, hids⟩ := exists_of_mem_right hpad hm
    have hx' : x.1 ∈ r'.2.map Prod.fst := hids ▸ List.mem_map_of_mem hx
    obtain ⟨y, hy, he⟩ := List.mem_map.1 hx'
    exact he ▸ hown r' hr' y hy
  have hsame : ∀ ℓ, ℓ ∈ a.cache.assignAll (O.storage.padRange range) ↔ ℓ ∈ a.cache := fun ℓ => by
    rw [UnorderedMap.mem_assignAll, hpadkeys, mem_cache_toList hr, or_self]
  -- the padding changes neither the locations nor the IDs
  have hpadded : L.Outlines o { a with cache := a.cache.assignAll (O.storage.padRange range) } := by
    refine { hs with cache_lt := fun ℓ hℓ => hs.cache_lt ℓ ((hsame ℓ).1 hℓ), cache_id := fun ℓ b hb => ?_, cached := ?_ }
    · change AList.lookup ℓ (a.cache.assignAll (O.storage.padRange range)) = some b at hb
      by_cases hp : ℓ ∈ (O.storage.padRange range).map Prod.fst
      · obtain ⟨r, hr', rfl⟩ := List.mem_map.1 hp
        rw [UnorderedMap.lookup_assignAll_of_mem _ _ (hpadkeys ▸ hkeys) hr'] at hb
        cases hb
        exact hpadown r hr'
      · rw [UnorderedMap.lookup_assignAll_of_notMem _ _ _ hp] at hb
        exact hs.cache_id ℓ b hb
    · rw [hs.cached]
      funext ℓ
      exact decide_eq_decide.2 (hsame ℓ).symm
  refine Triple.bind (Q := fun _ s' => s' = { a with cache := a.cache.assignAll (O.storage.padRange range) })
    (Triple.modify fun s' h => by rw [h]) fun _ => ?_
  have hset : Triple (StorageAdapter.RawIs L.storage (L.storage.raw a.storage.backend) o.calls) (O.storage.set range) _ _ :=
    StorageAdapter.set_checked L.crypto fun r hm x hx => own_lt L (hown r hm x hx)
  refine Triple.bind ((Triple.zoom (OramState.storageLens β μ) hset
    { a with cache := a.cache.assignAll (O.storage.padRange range) }).conseq
    (fun s' h => ⟨h, by rw [h]; exact ⟨rfl, hs.calls.symm⟩⟩) (fun _ _ h => h) ?_) fun _ => Triple.modify ?_
  · rintro e s' ⟨t, rfl, done, calls', hdone, hraw, -⟩
    refine Or.inr ⟨{ o with calls := t.calls }, { hpadded with storage_id := ?_, calls := rfl }⟩
    change StorageAdapter.Decodes O.storage O.OwnId (L.storage.raw t.backend)
    rw [hraw]
    exact hs.storage_id.writeAll hown hdone
  · rintro s' ⟨t, rfl, writes, hwrites, hraw, hcalls⟩
    have hfst : writes.map Prod.fst = range.map Prod.fst := by
      rw [← List.forall₂_eq_eq_eq, List.forall₂_map_left_iff, List.forall₂_map_right_iff]
      exact hwrites.flip.imp fun _ _ h => h.2.1
    refine ⟨_, ⟨writes, hfst ▸ hkeys, fun ℓ => ?_, rfl⟩,
      { hpadded with cache_lt := ?_, cache_id := ?_, storage_id := ?_, cached := ?_, calls := hcalls.symm }⟩
    · rw [hfst, mem_cache_toList hr, hs.cached, decide_eq_true_eq]
    · exact fun ℓ hℓ => absurd hℓ (AList.notMem_empty ℓ)
    · exact fun ℓ b hb => by simp at hb
    · change StorageAdapter.Decodes O.storage O.OwnId (L.storage.raw t.backend)
      rw [hraw]
      exact hs.storage_id.writeAll hown fun w hw => exists_of_mem_right hwrites hw
    · funext ℓ
      exact (decide_eq_false (AList.notMem_empty ℓ)).symm

/-! ## Calls -/

theorem prefetch_outlined (L : LawfulOram O) (o : Outline) (requests : List Block)
    (hr : ∀ r ∈ requests, r.1 < 2 ^ O.height * O.Z) :
    Refines L.Outlines o (O.prefetch requests)
      (fun locations o' => Outline.IsUnion O.height o (requests.map Prod.fst) locations ∧ o' = o) L.Stopped := by
  apply Refines.assume (fun s hs => hs.pos_lt)
  intro hpos
  refine (Refines.foldlM (fun rest (locations : List ℕ) o' => (∃ done, done ++ rest = requests ∧
    Outline.IsUnion O.height o (done.map Prod.fst) locations) ∧ o' = o) ?_ [] ⟨⟨[], rfl, List.nodup_nil, by simp⟩, rfl⟩).post ?_
  · rintro locations r rest o' hm ⟨⟨done, hdone, hnodup, hmem⟩, rfl⟩
    have hlt := hr r (hm.subset List.mem_cons_self)
    refine (mapGet_outlined hlt).bind ?_
    rintro _ o₁ ⟨rfl, rfl⟩
    obtain ⟨hnodup', hmem'⟩ := L.pathLocations_spec (hpos _ hlt) hnodup
    refine Refines.pure ⟨⟨done ++ [r], by simpa using hdone, hnodup', fun ℓ => (hmem' ℓ).trans ?_⟩, rfl⟩
    rw [hmem]
    simp [or_and_right, exists_or]
  · rintro locations o' ⟨⟨done, hdone, h⟩, rfl⟩
    rw [List.append_nil] at hdone
    exact ⟨hdone ▸ h, rfl⟩

variable (L) in
/-- between calls: nothing is cached -/
def Idle (s : OramState β μ) : Prop := ∃ o, L.Outlines o s ∧ o.cached = fun _ => false

theorem Outlines.idle {o₁ : Outline} {s : OramState β μ} (h : L.Outlines o₁ s) (hu : o.Uploaded o₁) : L.Idle s := by
  obtain ⟨writes, -, -, rfl⟩ := hu
  exact ⟨_, h, rfl⟩

theorem outlines_of_sees {v : View} {s : OramState β μ} (hv : Shape O v) (hc : v.cached = fun _ => false)
    (hs : L.Sees v s) : L.Outlines ⟨v.pos, v.cached, v.calls⟩ s := by
  obtain ⟨hempty, hdecode⟩ := hs.decode hc
  obtain ⟨store, hstore, -⟩ := hs.tree
  refine ⟨⟨_, hs.map⟩, hv.pos_lt, fun k hk => ?_, fun ℓ hℓ => ?_, fun ℓ b hb => ?_, fun ℓ hℓ => ⟨v.tree ℓ, hdecode ℓ hℓ, ?_, ?_⟩,
    hs.cached, hstore.2.2.symm⟩
  · obtain ⟨d, hd⟩ := UnorderedMap.mem_iff_lookup.1 hk
    exact hv.stash_id k d (by rw [hs.stash]; exact hd)
  · rw [hempty] at hℓ
    exact absurd hℓ (AList.notMem_empty ℓ)
  · rw [hempty] at hb
    simp at hb
  · rw [L.Z_eq, hv.bucket_length ℓ hℓ]
  · exact fun x hx => hv.tree_id ℓ x hx

/-- **An initialised ORAM has an outline** with nothing cached. -/
theorem construct_outlined (L : LawfulOram O) :
    Triple L.Fresh O.construct (fun _ => L.Idle) (fun e _ => L.Throws e) := by
  apply (construct_triple L).post
  intro _ s hs
  obtain ⟨v, hv, -, hc, hs⟩ := hs
  exact ⟨_, outlines_of_sees hv.toShape hc hs, hc⟩

end LawfulOram

end PathOram
