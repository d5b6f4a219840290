/-
What the server sees of a history that begins with a bulk load.

A load sends its buckets in one upload, at locations that depend on their number alone, and nothing else of the records can
be seen: neither which they are, nor what they hold, nor where the shuffle put them. The leaves that it draws show only
when their blocks are asked for.

- `load_observed`: what a load shows.
- `history_observed`: **a history that begins with a load** shows the number of its records and the leaves of its requests.

The locations of a load are those of exact arithmetic (`loadLocation`); the code's `long double` may round one of them down.
-/
import PathOram.BulkLoad
import PathOram.Failures
import PathOram.Trace

namespace PathOram

open Lib

/-- what a load of n records shows: one upload, of as many buckets as the records fill, spread over the tree in exact
arithmetic -/
def loadTrace (height Z blockSize n : ℕ) : Bool × Multiset ℕ × Multiset ℕ :=
  let count := (n + Z - 1) / Z
  (false, ((List.range count).map fun i => 1 + i * 2 ^ height / count : List ℕ), Multiset.replicate count blockSize)

section

variable {β μ : Type} {S : StorageAdapter β} {O : Oram β μ}

/-- an upload shows its locations, and buffers of one size -/
theorem observed_of_isSetOf {requests : List (ℕ × Bucket)} {call : StorageCall} (h : StorageAdapter.IsSetOf S requests call) :
    call.observed = (false, ↑(requests.map Prod.fst), Multiset.replicate requests.length S.blockSize) := by
  obtain ⟨writes, rfl, hlocations, hsizes⟩ := h
  have hlength : writes.length = requests.length := by
    rw [← List.length_map Prod.fst, hlocations, List.length_map]
  have hbuffers : (writes.map fun x => x.2.length) = List.replicate requests.length S.blockSize := by
    rw [List.eq_replicate_iff, List.length_map, hlength]
    refine ⟨rfl, fun n hn => ?_⟩
    obtain ⟨x, hx, rfl⟩ := List.mem_map.1 hn
    exact hsizes x hx
  rw [StorageCall.observed, hlocations, hbuffers, Multiset.coe_replicate]

namespace LawfulOram

variable {c : Contents} {calls : List StorageCall}

/-- **What a load shows**, from any state between calls, is a function of the number of its records. -/
theorem load_observed (L : LawfulOram O) (hh : O.height ≤ 30) {data : List Block} (hd : Loadable O data)
    (hcount : O.bucketCount data < 2 ^ O.height) :
    Triple (fun s => L.HoldsOnce c s ∧ s.storage.calls = calls) (O.load data)
      (fun _ s => s.storage.calls.map StorageCall.observed =
        calls.map StorageCall.observed ++ [loadTrace O.height O.Z O.storage.blockSize data.length]) (fun _ _ => True) := by
  intro w s ⟨⟨v, _, _, hcached, hs⟩, hcalls⟩
  refine Triple.conseq (load_refines L hh hd (fun ℓ => by rw [hcached]) (Or.inl hcount)) (fun _ hs' => hs') ?_
    (fun _ _ _ => trivial) w s hs
  intro order s' ⟨v', hloaded, hs'⟩
  obtain ⟨requests, call, v₁, hcol, hcall, rfl⟩ := hloaded
  obtain ⟨store, hstore, -⟩ := hs.tree
  obtain ⟨store', hstore', -⟩ := hs'.tree
  have hbefore : v.calls = calls := hstore.2.2.symm.trans hcalls
  have hafter : s'.storage.calls = calls ++ [call] := by
    rw [← hbefore]
    exact hstore'.2.2
  have hlocations : requests.map Prod.fst =
      (List.range (O.bucketCount data)).map fun i => 1 + i * 2 ^ O.height / O.bucketCount data := by
    rw [hcol.locations]
    exact List.map_congr_left fun i _ => loadLocation_eq hh _ i
  have hlength : requests.length = O.bucketCount data := by
    rw [← List.length_map Prod.fst, hlocations, List.length_map, List.length_range]
  rw [hafter, List.map_append, List.map_singleton, observed_of_isSetOf hcall, hlocations, hlength]
  rfl

/-- between calls nothing is cached, and every entry of the map is a leaf -/
theorem HoldsOnce.leaves {mapCapacity : ℕ} {O : Oram β (PositionArray mapCapacity)} {L : LawfulOram O} (hL : L.OnArray)
    {s : OramState β (PositionArray mapCapacity)} (hs : L.HoldsOnce c s) : s.cache = ∅ ∧ Leaves O s := by
  obtain ⟨v, hv, -, hcached, hs⟩ := hs
  exact ⟨(Sees.decode hs hcached).1, fun id hid => ⟨v.pos id, hv.pos_lt id hid, hL.position hs hid⟩⟩

end LawfulOram

end

/-- **A history that begins with a load.** The ORAM is constructed and loaded, and requests are made. What the server sees
after the constructor is a function of the number of records and of the leaf that each request's block has when it is made:
one upload for the load, at locations computed in exact arithmetic, and a download and an upload of the leaf's path for each
request. -/
theorem history_observed {β : Type} {S : StorageAdapter β} {mapCapacity stashCapacity height batchSize : ℕ}
    (h : Sizes S.toAbsStorageAdapter S.crypto mapCapacity height) (hh : height ≤ 30)
    (L : LawfulBackend S.backend S.capacity S.blockSize) {s₀ s₁ s₂ s₃ : OramState β (PositionArray mapCapacity)}
    {w₀ w₁ w w₂ : World} (hfresh : Fresh s₀)
    (hconstruct : (arrayOram S mapCapacity stashCapacity height batchSize).construct.exec w₀ s₀ = (.ok (), w₁, s₁))
    {data order : List Block} (hd : LawfulOram.Loadable (arrayOram S mapCapacity stashCapacity height batchSize) data)
    (hcount : (arrayOram S mapCapacity stashCapacity height batchSize).bucketCount data ≤ 2 ^ height - 1)
    (hload : ((arrayOram S mapCapacity stashCapacity height batchSize).load data).exec w s₁ = (.ok order, w₂, s₂))
    {calls : List Call} {leaves : List ℕ}
    (hvalid : ∀ call ∈ calls, ∀ block, call.single = some block → block < 2 ^ height * S.Z)
    (hrun : LeafRun (arrayOram S mapCapacity stashCapacity height batchSize) s₂ calls leaves s₃) :
    s₃.storage.calls.map StorageCall.observed = s₁.storage.calls.map StorageCall.observed ++
      loadTrace height S.Z S.blockSize data.length :: leaves.flatMap (accessTrace height S.blockSize) := by
  have hlt : (arrayOram S mapCapacity stashCapacity height batchSize).bucketCount data < 2 ^ height := by
    have hpos := Nat.two_pow_pos height
    omega
  set lawful := arrayOram_lawful h L stashCapacity batchSize with hlawful
  have hbuilt := (LawfulOram.construct_triple lawful).ok (arrayOram_fresh h L stashCapacity batchSize hfresh) hconstruct
  have hshown := (LawfulOram.load_observed lawful hh hd hlt).ok ⟨hbuilt, rfl⟩ hload
  have hholds := (LawfulOram.load_triple lawful hh hd hlt).ok hbuilt hload
  obtain ⟨hcache, hleaves⟩ := hholds.leaves (arrayOram_onArray h L stashCapacity batchSize)
  rw [run_observed h L hrun hvalid hleaves hcache, hshown, List.append_assoc]
  rfl

/-- five records are loaded, and two of them are asked for -/
theorem history_observed_bushy : ∃ s₁ s₃ : OramState (BlockArray 8 112) (PositionArray 16),
    s₃.storage.calls.map StorageCall.observed = s₁.storage.calls.map StorageCall.observed ++
      loadTrace 3 2 112 5 :: [3, 1].flatMap (accessTrace 3 112) := by
  set built := (inMemoryOram bushyStorage plainCrypto 16 6 3 4).construct.exec countingWorld (zeroState bushyStorage 16)
    with hbuilt
  set loaded := ((inMemoryOram bushyStorage plainCrypto 16 6 3 4).load bushyRecords).exec countingWorld built.2.2 with hloaded
  have hok : built.1 = .ok () := by
    rw [hbuilt]
    decide +kernel
  have hload : loaded.1 = .ok [(0, [1]), (5, [3]), (14, [5]), (3, [2]), (9, [4])] := by
    rw [hloaded, hbuilt]
    decide +kernel
  have hleaves : (inMemoryOram bushyStorage plainCrypto 16 6 3 4).leavesOf countingWorld loaded.2.2 [.get 3, .put 5 [6]] =
      some [3, 1] := by
    rw [hloaded, hbuilt]
    decide +kernel
  clear_value loaded built
  obtain ⟨s₃, hrun⟩ := leafRun_of_leavesOf hleaves
  exact ⟨_, s₃, history_observed bushy_sizes (by decide) (inMemoryBackend_lawful 8 112) (zeroState_fresh bushyStorage 16)
    (hbuilt.symm.trans (Prod.ext hok rfl)) bushy_loadable (by decide) (hloaded.symm.trans (Prod.ext hload rfl)) (by decide)
    hrun⟩

end PathOram
