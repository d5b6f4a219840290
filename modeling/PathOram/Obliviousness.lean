/-
The server sees uniform leaves.

With positions that the constructor draws and each access draws again, what the storage is asked for is a function of the
shape of the calls and of independent uniform leaves. The draws come from the tape of `Sampling`, and the abstract program
that the server can follow is that of `Observer`.

- `access_follows`, `exec_follows`, `run_follows`, `session_follows`: **the ORAM follows the abstract program**, up to what
  throws, from any state that has an outline.
- `session_law`: **the law of what a session shows**, and of the positions it leaves: uniform, up to the probability of an
  exception.
-/
import PathOram.Batches
import PathOram.BlockIds
import PathOram.Observer
import PathOram.Sampling
import PathOram.Trace

namespace PathOram

open Lib
open scoped ENNReal

/-! ## What is seen of a state -/

section

variable {β : Type} {mapCapacity : ℕ}

/-- the positions, the cached locations, and what was shown -/
def look (s : OramState β (PositionArray mapCapacity)) : Look :=
  ⟨leafOf s.map, s.cache.keySet, s.storage.calls.map StorageCall.observed⟩

theorem leafOf_setIfInBounds (map : PositionArray mapCapacity) {block : ℕ} (hb : block < mapCapacity) (leaf : ℕ) :
    leafOf (map.setIfInBounds block leaf) = Function.update (leafOf map) block leaf := by
  funext id
  rw [leafOf, Vector.getElem?_setIfInBounds, Function.update_apply]
  by_cases h : id = block
  · subst h
    simp [hb]
  · rw [if_neg (Ne.symm h), if_neg h]
    rfl

end

theorem observed_getCalls {missing : List ℕ} {locations : Finset ℕ} (hnodup : missing.Nodup)
    (hmem : ∀ ℓ, ℓ ∈ missing ↔ ℓ ∈ locations) :
    (LawfulOram.getCalls missing).map StorageCall.observed = downloads locations := by
  have hval : (missing : Multiset ℕ) = locations.val :=
    (Multiset.Nodup.ext (Multiset.coe_nodup.2 hnodup) locations.nodup).2 fun ℓ => by
      rw [Multiset.mem_coe, hmem, Finset.mem_val]
  cases missing with
  | nil =>
    have hempty : locations = ∅ := Finset.eq_empty_of_forall_notMem fun ℓ hℓ => List.not_mem_nil ((hmem ℓ).2 hℓ)
    rw [hempty, downloads_empty]
    rfl
  | cons ℓ rest =>
    have hne : locations ≠ ∅ := Finset.ne_empty_of_mem ((hmem ℓ).1 List.mem_cons_self)
    rw [downloads, if_neg hne, ← hval]
    rfl

theorem observed_set {writes : List (ℕ × Bytes)} {locations : Finset ℕ} {blockSize : ℕ}
    (hnodup : (writes.map Prod.fst).Nodup) (hmem : ∀ ℓ, ℓ ∈ writes.map Prod.fst ↔ ℓ ∈ locations)
    (hsize : ∀ x ∈ writes, x.2.length = blockSize) :
    (StorageCall.set writes).observed = uploads blockSize locations := by
  have hval : ((writes.map Prod.fst : List ℕ) : Multiset ℕ) = locations.val :=
    (Multiset.Nodup.ext (Multiset.coe_nodup.2 hnodup) locations.nodup).2 fun ℓ => by
      rw [Multiset.mem_coe, hmem, Finset.mem_val]
  have hcard : locations.card = writes.length := by
    rw [Finset.card_def, ← hval, Multiset.coe_card, List.length_map]
  have hlengths : (writes.map fun x => x.2.length) = List.replicate locations.card blockSize :=
    List.eq_replicate_iff.2 ⟨by rw [List.length_map, hcard], fun n hn => by
      obtain ⟨x, hx, rfl⟩ := List.mem_map.1 hn
      exact hsize x hx⟩
  rw [StorageCall.observed, hval, hlengths, uploads, Multiset.coe_replicate]

/-- the body of the loop of the constructor -/
def Oram.drawPosition {β μ : Type} (O : Oram β μ) (i : ℕ) : Run (OramState β μ) Unit := do
  let leaf ← getRandomULong (shlOne (O.height - 1))
  Oram.onMap (O.map.set i leaf)

theorem construct_eq {β μ : Type} (O : Oram β μ) : O.construct = (do
    Oram.onStorage O.storage.fillWithZeroes
    (List.range O.blocks).forM O.drawPosition) := rfl

/-- the IDs of a call -/
def Call.ids (call : Call) : List ℕ := call.ops.map Op.block

/-- the numbers of the blocks of a call and of the accesses that repeat one -/
def Call.shape (call : Call) : ℕ × ℕ := PathOram.shape call.ids

/-- the accesses of calls of these shapes -/
def accessCount (shapes : List (ℕ × ℕ)) : ℕ := (shapes.map fun shape => shape.1 + shape.2).sum

theorem accessCount_eq (calls : List Call) :
    accessCount (calls.map Call.shape) = ((calls.map Call.ids).map List.length).sum := by
  rw [accessCount, List.map_map, List.map_map]
  congr 1
  exact List.map_congr_left fun call _ => shape_sum call.ids

namespace LawfulOram

variable {β : Type} {mapCapacity : ℕ} {O : Oram β (PositionArray mapCapacity)} {L : LawfulOram O} {o : Outline}
  {s s' : OramState β (PositionArray mapCapacity)} {w w' : World}

/-- the array holds the positions of the outline -/
theorem outlines_leafOf (hL : L.OnArray) (hs : L.Outlines o s) {i : ℕ} (hi : i < 2 ^ O.height * O.Z) :
    i < mapCapacity ∧ leafOf s.map i = o.pos i := by
  obtain ⟨mapCalls, hknows⟩ := hs.map
  have hget : Triple (L.map.Knows o.pos mapCalls) (O.map.get i) (fun r _ => r = o.pos i) (fun _ _ => False) :=
    (L.map.get_knows o.pos mapCalls hi).conseq (fun _ h => h) (fun _ _ h => h.1) fun e _ h => hL.err e h
  have hget := hget ⟨fun _ => 0, fun _ => 0⟩ s.map hknows
  rw [hL.map, exec_arrayGet] at hget
  by_cases hcap : mapCapacity ≤ i
  · rw [if_pos hcap] at hget
    exact hget.elim
  · rw [if_neg hcap] at hget
    exact ⟨not_le.1 hcap, hget⟩

theorem outlines_cached (hs : L.Outlines o s) (ℓ : ℕ) : o.cached ℓ = true ↔ ℓ ∈ s.cache.keySet := by
  rw [hs.cached, decide_eq_true_eq, UnorderedMap.mem_keySet]

/-- what a fetch shows -/
theorem look_fetched {o o' : Outline} {locations : List ℕ} (hs : L.Outlines o s) (hs' : L.Outlines o' s')
    (hnodup : locations.Nodup) {pos : ℕ → ℕ} (hfetched : { o with pos := pos }.Fetched locations o') :
    s'.cache.keySet = s.cache.keySet ∪ locations.toFinset ∧
      s'.storage.calls.map StorageCall.observed =
        s.storage.calls.map StorageCall.observed ++ downloads (locations.toFinset \ s.cache.keySet) := by
  obtain ⟨missing, hmissing, rfl⟩ := hfetched
  constructor
  · ext ℓ
    rw [← outlines_cached hs' ℓ, Finset.mem_union, ← outlines_cached hs ℓ, List.mem_toFinset]
    simp [Outline.caching]
  · rw [← hs'.calls, List.map_append, hs.calls]
    congr 1
    apply observed_getCalls (hmissing.nodup_iff.2 (hnodup.filter _))
    intro ℓ
    have hcached := outlines_cached hs ℓ
    rw [hmissing.mem_iff, List.mem_filter, Finset.mem_sdiff, List.mem_toFinset, ← hcached, Bool.not_eq_true']
    simp

/-- what leaves the array of leaves alone -/
theorem map_kept (hL : L.OnArray) (map : PositionArray mapCapacity) :
    Kept O fun t : OramState β (PositionArray mapCapacity) => t.map = map :=
  ⟨fun _ _ h => h, fun _ _ h => h, fun _ _ h => h, fun i => by rw [hL.map]; exact arrayGet_keeps i⟩

/-- **An access moves its block**, in every world, to the leaf that is drawn. -/
theorem access_map (hL : L.OnArray) {block : ℕ} (hb : block < mapCapacity) {read : Bool} {data response r : Bytes}
    (hexec : (O.access read block data response).exec w s = (.ok r, w', s')) :
    s'.map = s.map.setIfInBounds block (O.drawnLeaf w) := by
  have hremap := exec_remap hL.map block w s
  rw [if_neg (not_le.2 hb)] at hremap
  rw [access_eq, Prog.exec_bind_ok hremap] at hexec
  exact ((map_kept hL _).steady.accessPath _ _ _ _ _).ok rfl hexec

/-- **What an access shows**, in every world: the path of the leaf of its block. The block moves to the leaf that is
drawn. -/
theorem access_look (hL : L.OnArray) (hs : L.Outlines o s) {block : ℕ} (hb : block < 2 ^ O.height * O.Z) {read : Bool}
    {data response r : Bytes} (hexec : (O.access read block data response).exec w s = (.ok r, w', s')) :
    look s' = (look s).access O.height block (O.drawnLeaf w) := by
  obtain ⟨hcap, hleaf⟩ := outlines_leafOf hL hs hb
  obtain ⟨o', ⟨leaf, -, hfetched⟩, hs'⟩ := (access_outlined L o hb read data response).ok hs hexec
  obtain ⟨hcached, hseen⟩ := look_fetched hs hs' (path_nodup (hs.pos_lt block hb)) hfetched
  have hmap := access_map hL hcap hexec
  rw [look, hmap, leafOf_setIfInBounds _ hcap, hcached, hseen, ← hleaf]
  rfl

/-- what a batch does before its accesses -/
theorem prepare_look (hL : L.OnArray) {requests : List Block} (hr : ∀ r ∈ requests, r.1 < 2 ^ O.height * O.Z) (l : Look) :
    Triple (fun s => (∃ o, L.Outlines o s) ∧ look s = l) (O.prepare requests)
      (fun _ s => (∃ o, L.Outlines o s) ∧ look s = l.fetch (Look.paths O.height l.pos (requests.map Prod.fst)))
      (fun _ _ => True) := by
  rintro w s ⟨⟨o, hs⟩, rfl⟩
  have hpos := hs.pos_lt
  have houtlined : Refines L.Outlines o (O.prepare requests) (fun _ o' => ∃ locations,
      Outline.IsUnion O.height o (requests.map Prod.fst) locations ∧ o.Fetched locations o') L.Stopped := by
    refine (prefetch_outlined L o requests hr).bind fun locations o₁ ⟨hunion, ho₁⟩ => ?_
    subst o₁
    have htree : ∀ ℓ ∈ locations, ℓ < 2 ^ O.height := by
      intro ℓ hℓ
      obtain ⟨id, hid, hp⟩ := (hunion.2 ℓ).1 hℓ
      obtain ⟨r, hm, rfl⟩ := List.mem_map.1 hid
      exact (mem_path_lt (hpos _ (hr r hm)) hp).2
    refine (getCache_outlined true (fun ℓ hℓ => (htree ℓ hℓ).trans_le L.capacity_ge)
      (L.locations_length hunion.1 htree)).post fun _ o₁ h => ⟨locations, hunion, h.1⟩
  refine ((Triple.and houtlined ((map_kept hL s.map).steady.prepare requests)).conseq (fun _ h => h) ?_ fun _ _ _ => trivial)
    w s ⟨hs, rfl⟩
  rintro _ s' ⟨⟨o', ⟨locations, hunion, hfetched⟩, hs'⟩, hmap⟩
  obtain ⟨hcached, hseen⟩ := look_fetched hs hs' hunion.1 hfetched
  have hpaths : locations.toFinset = Look.paths O.height (leafOf s.map) (requests.map Prod.fst) := by
    ext ℓ
    rw [List.mem_toFinset, hunion.2]
    simp only [Look.paths, Finset.mem_biUnion, List.mem_toFinset]
    constructor
    · rintro ⟨id, hid, hp⟩
      obtain ⟨r, hm, rfl⟩ := List.mem_map.1 hid
      exact ⟨r.1, hid, by rwa [(outlines_leafOf hL hs (hr r hm)).2]⟩
    · rintro ⟨id, hid, hp⟩
      obtain ⟨r, hm, rfl⟩ := List.mem_map.1 hid
      exact ⟨r.1, hid, by rwa [(outlines_leafOf hL hs (hr r hm)).2] at hp⟩
  refine ⟨⟨o', hs'⟩, ?_⟩
  rw [look, hmap, hcached, hseen, hpaths]
  rfl

/-- what an upload shows -/
theorem syncCache_look (l : Look) :
    Triple (fun s => (∃ o, L.Outlines o s) ∧ look s = l) O.syncCache
      (fun _ s => L.Idle s ∧ look s = l.upload O.storage.blockSize) (fun _ _ => True) := by
  rintro w s ⟨⟨o, hs⟩, rfl⟩
  have hsizes : Triple (fun t => t = s) O.syncCache (fun _ t => t.map = s.map ∧ ∃ writes,
      t.storage.calls = s.storage.calls ++ [.set writes] ∧ ∀ x ∈ writes, x.2.length = O.storage.blockSize)
      (fun _ _ => True) := by
    unfold Oram.syncCache
    apply Triple.bind (Q := fun a t => a = s ∧ t = s) (Triple.read fun t h => ⟨h, h⟩)
    intro a
    apply Triple.of_pure
    intro ha
    subst ha
    apply (iterate_triple a.cache.toList).bind
    intro range
    apply Triple.of_pure
    intro _
    refine Triple.bind (Q := fun _ t => t = { a with cache := a.cache.assignAll (O.storage.padRange range) })
      (Triple.modify fun t h => by rw [h]) fun _ => ?_
    have hset : Triple (fun t : StorageState β => t.calls = a.storage.calls) (O.storage.set range) _ _ :=
      StorageAdapter.set_observed L.storage L.crypto range
    refine Triple.bind ((Triple.zoom (OramState.storageLens _ _) hset
      { a with cache := a.cache.assignAll (O.storage.padRange range) }).conseq (fun t h => ⟨h, by rw [h]; rfl⟩)
      (fun _ _ h => h) fun _ _ _ => trivial) fun _ => Triple.modify ?_
    rintro t ⟨storage, rfl, writes, hcalls, -, hlen⟩
    exact ⟨rfl, writes, hcalls, hlen⟩
  refine ((Triple.and (syncCache_outlined L o) hsizes).conseq (fun _ h => h) ?_ fun _ _ _ => trivial) w s ⟨hs, rfl⟩
  rintro _ s' ⟨⟨o', hu, hs'⟩, hmap, writes, hcalls, hlen⟩
  refine ⟨hs'.idle hu, ?_⟩
  obtain ⟨writes', hnodup, hmem, rfl⟩ := hu
  have hsame : writes' = writes := by
    have hlast : s.storage.calls ++ [.set writes'] = s.storage.calls ++ [.set writes] := by
      rw [← hcalls, ← hs'.calls, hs.calls]
    simpa using hlast
  subst hsame
  have hempty : s'.cache.keySet = ∅ := Finset.eq_empty_of_forall_notMem fun ℓ hℓ => by
    rw [← outlines_cached hs' ℓ] at hℓ
    simp at hℓ
  have hobserved := observed_set hnodup (fun ℓ => (hmem ℓ).trans (outlines_cached hs ℓ)) hlen
  rw [look, hmap, hempty, hcalls, List.map_append, List.map_singleton, hobserved]
  rfl

/-- the locations of the storage are written once each -/
theorem fill_look (L : LawfulOram O) (l : Look) :
    Triple (fun s : OramState β (PositionArray mapCapacity) => look s = l) (Oram.onStorage O.storage.fillWithZeroes)
      (fun _ s => look s = { l with seen := l.seen ++ [uploads O.storage.blockSize (Finset.range O.storage.capacity)] })
      (fun _ _ => True) := by
  intro w s hs
  let zeroes : List (ℕ × Bucket) :=
    (List.range O.storage.capacity).map fun i => (i, List.replicate O.storage.Z (ulongMax, ([] : Bytes)))
  have hset : Triple (fun t : StorageState β => t.calls = s.storage.calls) O.storage.fillWithZeroes _ _ :=
    StorageAdapter.set_observed L.storage L.crypto zeroes
  have hzoom := Triple.zoom (OramState.storageLens β (PositionArray mapCapacity)) hset s
  refine hzoom.conseq (fun _ h => h) ?_ (fun _ _ _ => trivial) w s ⟨rfl, rfl⟩
  intro _ t ht
  obtain ⟨storage, rfl, writes, hcalls, hfst, hlen⟩ := ht
  have hlocations : writes.map Prod.fst = List.range O.storage.capacity := by
    rw [hfst, List.map_map]
    exact List.map_id _
  have hobserved : (StorageCall.set writes).observed = uploads O.storage.blockSize (Finset.range O.storage.capacity) :=
    observed_set (hlocations ▸ List.nodup_range) (fun ℓ => by rw [hlocations, List.mem_range, Finset.mem_range]) hlen
  change Look.mk _ _ (storage.calls.map StorageCall.observed) = _
  rw [hcalls, List.map_append, List.map_singleton, hobserved, ← hs]
  rfl

/-! ## The ORAM follows the abstract program -/

section Follows

variable {M : ℕ} [NeZero M] (hM : 2 ^ 64 ∣ M) (hL : L.OnArray) (D : SamplingOram O)

include hM hL D

/-- **An access** draws a leaf. -/
theorem access_follows {block : ℕ} (hb : block < 2 ^ O.height * O.Z) (read : Bool) (data response : Bytes) :
    Follows worldTape M look (fun s => ∃ o, L.Outlines o s) (O.access read block data response)
      (fun s => ∃ o, L.Outlines o s) (lookAccesses O.height [block]) where
  samples := D.access_samples read block data response
  keeps := Triple.exists_pre fun o => Triple.conseq (access_outlined L o hb read data response) (fun _ h => h)
    (fun _ _ h => h.imp fun _ h => h.2) fun _ _ _ => trivial
  le Φ k s hs := by
    obtain ⟨o, hs⟩ := hs
    have hexponent : O.height - 1 ≤ 64 := (Nat.sub_le _ _).trans (L.height_le.trans (by norm_num))
    let value : Except Exception ℕ → (ℕ → ℕ) → OramState β (PositionArray mapCapacity) → ℝ≥0∞ :=
      carryOn (fun leaf _ _ => Φ ((look s).access O.height block leaf)) fun _ _ _ => 0
    calc expect worldTape M (O.access read block data response) k s (worth look Φ)
        ≤ mean M fun t => Φ ((look s).access O.height block (O.drawnLeaf (worldTape.make t k))) := by
          apply mean_mono
          intro t
          rcases hr : (O.access read block data response).exec (worldTape.make t k) s with ⟨e | r, w', s'⟩
          · exact zero_le
          · exact (congrArg Φ (access_look hL hs hb hr)).le
      _ = expect worldTape M (getRandomULong (2 ^ (O.height - 1)) : Run (OramState β (PositionArray mapCapacity)) ℕ) k s
            value := by
          simp only [Oram.drawnLeaf, L.shlOne_eq]
          rfl
      _ = lookAccesses O.height [block] Φ (look s) := getRandomULong_expect hM hexponent k s value

/-- one access after the other -/
theorem accessList_follow {requests : List Block} (hr : ∀ r ∈ requests, r.1 < 2 ^ O.height * O.Z) {response : List Bytes}
    (hlen : response.length = requests.length) :
    Follows worldTape M look (fun s => ∃ o, L.Outlines o s)
      ((requests.zip response).mapM fun r => O.access (r.1.2.length == 0) r.1.1 r.1.2 r.2)
      (fun s => ∃ o, L.Outlines o s) (lookAccesses O.height (requests.map Prod.fst)) := by
  induction requests generalizing response with
  | nil => exact Follows.pure _
  | cons r requests ih =>
    obtain ⟨a, response, rfl⟩ := List.exists_cons_of_length_eq_add_one hlen
    rw [List.zip_cons_cons, List.mapM_cons]
    have hfirst := access_follows hM hL D (hr r List.mem_cons_self) (r.2.length == 0) r.2 a
    have hlen' : response.length = requests.length := by simpa using hlen
    have hrest := ih (fun r hm => hr r (List.mem_cons_of_mem _ hm)) hlen'
    exact hfirst.bind fun _ => hrest.bind fun _ => Follows.pure _

/-- the accesses of a batch; without an end they return nothing that would have to be followed -/
theorem accesses_follow {requests : List Block} (hr : ∀ r ∈ requests, r.1 < 2 ^ O.height * O.Z) :
    Follows worldTape M look (fun s => ∃ o, L.Outlines o s) (O.serve requests)
      (fun s => ∃ o, L.Outlines o s) (lookAccesses O.height (requests.map Prod.fst)) := by
  rcases lt_or_ge requests.length (2 ^ 32) with hshort | hlong
  · rw [serve_eq hshort]
    exact accessList_follow hM hL D hr List.length_replicate
  · exact Follows.of_not_ok (D.batchLoop_samples _ _ _ _) ((batchLoop_ends requests _ _).conseq (fun _ _ => trivial)
      (fun _ _ hshort => absurd hlong (not_le.2 hshort)) fun _ _ _ => trivial)

omit hM hL in
theorem syncCache_follows :
    Follows worldTape M look (fun s => ∃ o, L.Outlines o s) O.syncCache L.Idle
      (fun Φ l => Φ (l.upload O.storage.blockSize)) :=
  Follows.of_triple D.syncCache_samples syncCache_look

/-- **A call** is the abstract one. -/
theorem exec_follows {call : Call} (hcall : ∀ op ∈ call.ops, op.block < 2 ^ O.height * O.Z) :
    Follows worldTape M look L.Idle (O.exec call) L.Idle (lookCall O.height O.storage.blockSize call.ids) := by
  have hfinish : ∀ rs, Follows worldTape M look (fun s => ∃ o, L.Outlines o s) (do
      O.syncCache
      return call.reply rs) L.Idle (fun Φ l => Φ (l.upload O.storage.blockSize)) :=
    fun rs => (syncCache_follows D).bind fun _ => Follows.pure _
  have hidle : ∀ s, L.Idle s → ∃ o, L.Outlines o s := fun s hs => hs.imp fun _ h => h.1
  have hone : ∀ op : Op, call.ops = [op] → call.batch = [] →
      Follows worldTape M look L.Idle (O.exec call) L.Idle (lookCall O.height O.storage.blockSize call.ids) := by
    intro op hops hbatch
    have hb : op.block < 2 ^ O.height * O.Z := hcall op (by rw [hops]; exact List.mem_singleton_self op)
    have haccess : Follows worldTape M look (fun s => ∃ o, L.Outlines o s) (do
        return [← O.access op.read op.block op.data []]) (fun s => ∃ o, L.Outlines o s) (lookAccesses O.height [op.block]) :=
      (access_follows hM hL D hb op.read op.data []).bind fun r => Follows.pure [r]
    rw [exec_eq, accesses_single O hops hbatch]
    refine (haccess.bind hfinish).conseq hidle (fun _ h => h) fun Φ s _ => ?_
    rw [Call.ids, hops, List.map_singleton, lookCall_single]
  cases call with
  | get block => exact hone ⟨true, block, []⟩ rfl rfl
  | put block data => exact hone ⟨false, block, data⟩ rfl rfl
  | multiple requests =>
    have hr : ∀ r ∈ requests, r.1 < 2 ^ O.height * O.Z := fun r hm => hcall _ (List.mem_map_of_mem hm)
    have hids : (Call.multiple requests).ids = requests.map Prod.fst := by
      rw [Call.ids, Call.ops, List.map_map]
      rfl
    rw [exec_eq, hids]
    refine (Follows.bind (T := fun Φ l => lookAccesses O.height (requests.map Prod.fst) Φ
      (l.fetch (Look.paths O.height l.pos (requests.map Prod.fst)))) ?_ hfinish).conseq hidle (fun _ h => h)
      fun _ _ _ => le_rfl
    refine Follows.ite (fun _ => Follows.throw _) fun _ => ?_
    have hprepare : Follows worldTape M look (fun s => ∃ o, L.Outlines o s) (O.prepare requests) (fun s => ∃ o, L.Outlines o s)
        (fun Φ l => Φ (l.fetch (Look.paths O.height l.pos (requests.map Prod.fst)))) :=
      Follows.of_triple (D.prepare_samples requests) (prepare_look hL hr)
    exact hprepare.bind fun _ => accesses_follow hM hL D hr

/-- **A run** is the abstract one. -/
theorem run_follows {calls : List Call} (hcalls : ∀ call ∈ calls, ∀ op ∈ call.ops, op.block < 2 ^ O.height * O.Z) :
    Follows worldTape M look L.Idle (O.run calls) L.Idle
      (lookCalls O.height O.storage.blockSize (calls.map Call.ids)) := by
  induction calls with
  | nil => exact Follows.pure _
  | cons call calls ih =>
    rw [Oram.run, List.mapM_cons]
    have hrest := ih fun call hm => hcalls call (List.mem_cons_of_mem _ hm)
    exact (exec_follows hM hL D (hcalls call List.mem_cons_self)).bind fun _ => hrest.bind fun _ => Follows.pure _

/-! ## Construction -/

/-- one leaf of the constructor -/
theorem drawPosition_follows {i : ℕ} (hi : i < mapCapacity) :
    Follows worldTape M look (fun _ => True) (O.drawPosition i) (fun _ => True)
      (fun Φ l => redraw (2 ^ (O.height - 1)) i (fun pos => Φ { l with pos := pos }) l.pos) where
  samples := (getRandomULong_samples _).bind fun _ => Samples.zoom _ (D.map.set _ _)
  keeps := (Triple.trivial _ _).post fun _ _ _ => trivial
  le Φ k s _ := by
    have hexponent : O.height - 1 ≤ 64 := (Nat.sub_le _ _).trans (L.height_le.trans (by norm_num))
    have hset : ∀ leaf, expect worldTape M (Oram.onMap (O.map.set i leaf)) k s (worth look Φ) =
        Φ { look s with pos := Function.update (leafOf s.map) i leaf } := by
      intro leaf
      have hexec : ∀ t, (Oram.onMap (O.map.set i leaf)).exec (worldTape.make t k) s =
          (.ok (), worldTape.make t k, { s with map := s.map.setIfInBounds i leaf }) := by
        intro t
        rw [Oram.onMap, Prog.exec_zoom, hL.map, exec_arraySet, if_neg (not_le.2 hi)]
        rfl
      rw [expect_still hexec, worth, look, leafOf_setIfInBounds _ hi]
      rfl
    rw [Oram.drawPosition, expect_bind (getRandomULong_samples _), L.shlOne_eq, getRandomULong_expect hM hexponent]
    exact (average_congr fun leaf _ => hset leaf).le

/-- the loop of the constructor draws a leaf for each block -/
theorem drawPositions_follow {ids : List ℕ} (hids : ∀ id ∈ ids, id < mapCapacity) :
    Follows worldTape M look (fun _ => True) (ids.forM O.drawPosition) (fun _ => True)
      (fun Φ l => redrawAll (2 ^ (O.height - 1)) ids (fun pos => Φ { l with pos := pos }) l.pos) := by
  induction ids with
  | nil => exact Follows.pure _
  | cons i ids ih =>
    have hrest := ih fun id hm => hids id (List.mem_cons_of_mem _ hm)
    exact (drawPosition_follows hM hL D (hids i List.mem_cons_self)).bind fun _ => hrest

omit hM [NeZero M] D in
/-- the array has an entry for each block -/
theorem lt_mapCapacity (hs : L.Fresh s) {i : ℕ} (hi : i < 2 ^ O.height * O.Z) : i < mapCapacity := by
  obtain ⟨calls, hrep⟩ := hs.map
  have hset : Triple (L.map.Rep (fun _ => none) calls) (O.map.set i 0) (fun _ _ => True) (fun _ _ => False) :=
    (L.map.set (fun _ => none) calls i 0 hi (by norm_num)).conseq (fun _ h => h) (fun _ _ _ => trivial) fun e _ h => hL.err e h
  have hset := hset ⟨fun _ => 0, fun _ => 0⟩ s.map hrep
  rw [hL.map, exec_arraySet] at hset
  by_contra hcap
  rw [if_pos (not_lt.1 hcap)] at hset
  exact hset

/-- **The constructor** draws the positions. -/
theorem construct_follows :
    Follows worldTape M look L.Fresh O.construct L.Idle
      (fun Φ l => redrawAll (2 ^ (O.height - 1)) (List.range (2 ^ O.height * O.Z)) (fun pos =>
        Φ ⟨pos, l.cached, l.seen ++ [uploads O.storage.blockSize (Finset.range O.storage.capacity)]⟩) l.pos) where
  samples := D.construct_samples
  keeps := (construct_outlined L).conseq (fun _ h => h) (fun _ _ h => h) fun _ _ _ => trivial
  le Φ k s hs := by
    have hids : ∀ id ∈ List.range O.blocks, id < mapCapacity := by
      intro id hid
      rw [L.blocks_eq, List.mem_range] at hid
      exact lt_mapCapacity hL hs hid
    have hfill : Follows worldTape M look (fun _ => True) (Oram.onStorage O.storage.fillWithZeroes) (fun _ => True)
        (fun Φ l => Φ { l with seen := l.seen ++ [uploads O.storage.blockSize (Finset.range O.storage.capacity)] }) :=
      Follows.of_triple (Samples.zoom _ (StorageAdapter.set_samples D.backend _)) fun l =>
        (fill_look L l).conseq (fun _ h => h.2) (fun _ _ h => ⟨trivial, h⟩) fun _ _ h => h
    have hle := (hfill.bind fun _ => drawPositions_follow hM hL D hids).le Φ k s trivial
    rw [L.blocks_eq] at hle
    rw [construct_eq, L.blocks_eq]
    exact hle

/-- **A session** draws the positions and makes its calls. -/
theorem session_follows {calls : List Call} (hcalls : ∀ call ∈ calls, ∀ op ∈ call.ops, op.block < 2 ^ O.height * O.Z) :
    Follows worldTape M look L.Fresh (O.session calls) L.Idle
      (fun Φ l => averageLists (2 ^ (O.height - 1)) (accessCount (calls.map Call.shape)) fun leaves =>
        redrawAll (2 ^ (O.height - 1)) (List.range (2 ^ O.height * O.Z)) (fun pos =>
          Φ ⟨pos, ∅, l.seen ++ [uploads O.storage.blockSize (Finset.range O.storage.capacity)] ++
            runTrace O.height O.storage.blockSize (calls.map Call.shape) leaves⟩) l.pos) := by
  refine ((construct_follows hM hL D).bind fun _ => run_follows hM hL D hcalls).conseq (fun _ h => h) (fun _ h => h) ?_
  intro Φ s hs
  have hcached : (look s).cached = ∅ := by
    change s.cache.keySet = ∅
    rw [hs.cache]
    rfl
  have hids : ∀ ids ∈ calls.map Call.ids, ∀ id ∈ ids, id ∈ List.range (2 ^ O.height * O.Z) := by
    intro ids hm id hid
    obtain ⟨call, hcall, rfl⟩ := List.mem_map.1 hm
    obtain ⟨op, hop, rfl⟩ := List.mem_map.1 hid
    exact List.mem_range.2 (hcalls call hcall op hop)
  have hshapes : (calls.map Call.ids).map shape = calls.map Call.shape := List.map_map
  rw [hcached, accessCount_eq]
  refine (calls_reveal (calls.map Call.ids) hids Φ (look s).pos _).le.trans ?_
  rw [hshapes]

end Follows

end LawfulOram

/-! ## The law of a session -/

section

variable {β : Type} {mapCapacity : ℕ}

/-- the program returned, and what was shown and the leaves of the first n blocks have a property -/
def Showed {α : Type} (n : ℕ) (E : List Observation → List ℕ → Prop) (r : Except Exception α) (_ : ℕ → ℕ)
    (s : OramState β (PositionArray mapCapacity)) : Prop :=
  (∃ a, r = .ok a) ∧ E (s.storage.calls.map StorageCall.observed) ((List.range n).map (leafOf s.map))

/-- the program threw -/
def Failed {α σ : Type} (r : Except Exception α) (_ : ℕ → ℕ) (_ : σ) : Prop := ∃ e, r = .error e

theorem threw_eq_failed {α σ : Type} : (Follows.Threw : Except Exception α → (ℕ → ℕ) → σ → Prop) = Failed := by
  funext r k s
  cases r with
  | error e => simp [Follows.Threw, Failed]
  | ok a => simp [Follows.Threw, Failed]

/-- The law of a session: what was shown before, the upload of all buckets, and for calls of these shapes the trace of
uniform leaves; uniform leaves for all blocks. It is the share of the lists of leaves with the property, of which the first
are shown and the others left. -/
noncomputable def uniformLaw (S : StorageAdapter β) (height : ℕ) (seen : List Observation) (shapes : List (ℕ × ℕ))
    (E : List Observation → List ℕ → Prop) : ℝ≥0∞ :=
  share (2 ^ (height - 1)) (accessCount shapes + 2 ^ height * S.Z) fun leaves =>
    E (seen ++ [uploads S.blockSize (Finset.range S.capacity)] ++
      runTrace height S.blockSize shapes (leaves.take (accessCount shapes))) (leaves.drop (accessCount shapes))

end

/-- the positions are drawn after the leaves that are shown -/
theorem uniformLaw_eq {β : Type} (S : StorageAdapter β) (height : ℕ) (seen : List Observation) (shapes : List (ℕ × ℕ))
    (E : List Observation → List ℕ → Prop) (pos : ℕ → ℕ) :
    uniformLaw S height seen shapes E =
      averageLists (2 ^ (height - 1)) (accessCount shapes) fun leaves =>
        redrawAll (2 ^ (height - 1)) (List.range (2 ^ height * S.Z)) (fun pos =>
          truth (E (seen ++ [uploads S.blockSize (Finset.range S.capacity)] ++ runTrace height S.blockSize shapes leaves)
            ((List.range (2 ^ height * S.Z)).map pos))) pos := by
  rw [uniformLaw, ← averageLists_truth, averageLists_append]
  apply averageLists_congr
  intro leaves hlen _
  rw [redrawAll_eq_averageLists List.nodup_range fun ps => truth (E _ ps), List.length_range]
  simp only [List.take_left' hlen, List.drop_left' hlen]

theorem uniformLaw_add_not {β : Type} (S : StorageAdapter β) (height : ℕ) (seen : List Observation)
    (shapes : List (ℕ × ℕ)) (E : List Observation → List ℕ → Prop) :
    uniformLaw S height seen shapes E + uniformLaw S height seen shapes (fun trace leaves => ¬ E trace leaves) = 1 := by
  rw [uniformLaw, uniformLaw, ← averageLists_truth, ← averageLists_truth]
  exact averageLists_add_eq (Nat.two_pow_pos _) _ fun _ => truth_add_not _

namespace LawfulOram

section Bounds

variable {β : Type} {mapCapacity : ℕ} {O : Oram β (PositionArray mapCapacity)} {L : LawfulOram O}
  {s : OramState β (PositionArray mapCapacity)} {M : ℕ} [NeZero M] (hM : 2 ^ 64 ∣ M) (hL : L.OnArray) (D : SamplingOram O)
  (hs : L.Fresh s) {calls : List Call} (hcalls : ∀ call ∈ calls, ∀ op ∈ call.ops, op.block < 2 ^ O.height * O.Z)
  (orders : ℕ → ℕ) (E : List Observation → List ℕ → Prop)

include hM hL D hs hcalls

omit [NeZero M] hM hL D hs hcalls in
theorem shows_eq_showed (n : ℕ) : (Follows.Shows look fun l => E l.seen ((List.range n).map l.pos) :
    Except Exception (List Reply) → (ℕ → ℕ) → OramState β (PositionArray mapCapacity) → Prop) = Showed n E := by
  funext r k s
  cases r with
  | error e => simp [Follows.Shows, Showed]
  | ok replies => simp [Follows.Shows, Showed, look]

/-- no more is shown than under the uniform law -/
theorem session_le : chance worldTape M (O.session calls) orders s (Showed (2 ^ O.height * O.storage.Z) E) ≤
    uniformLaw O.storage O.height (s.storage.calls.map StorageCall.observed) (calls.map Call.shape) E := by
  have hle := (session_follows hM hL D hcalls).chance_le (k := orders) hs fun l =>
    E l.seen ((List.range (2 ^ O.height * O.storage.Z)).map l.pos)
  rw [shows_eq_showed E, ← L.Z_eq] at hle
  exact hle.trans_eq (uniformLaw_eq O.storage O.height _ _ E (leafOf s.map)).symm

/-- and no less, but for exceptions -/
theorem le_session_add_failed :
    uniformLaw O.storage O.height (s.storage.calls.map StorageCall.observed) (calls.map Call.shape) E ≤
      chance worldTape M (O.session calls) orders s (Showed (2 ^ O.height * O.storage.Z) E) +
        chance worldTape M (O.session calls) orders s Failed := by
  have htotal := uniformLaw_add_not O.storage O.height (s.storage.calls.map StorageCall.observed) (calls.map Call.shape) E
  rw [uniformLaw_eq O.storage O.height _ _ E (leafOf s.map),
    uniformLaw_eq O.storage O.height _ _ (fun trace leaves => ¬ E trace leaves) (leafOf s.map)] at htotal
  have hfollows := session_follows hM hL D hcalls
  rw [← L.Z_eq] at hfollows
  have hge := hfollows.le_chance_add (k := orders) hs
    (fun l => E l.seen ((List.range (2 ^ O.height * O.storage.Z)).map l.pos)) htotal
  rw [shows_eq_showed E, threw_eq_failed] at hge
  exact (uniformLaw_eq O.storage O.height _ _ E (leafOf s.map)).trans_le hge

end Bounds

end LawfulOram

end PathOram
