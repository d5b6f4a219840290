/-
How large a stash has to be.

The blocks that come together in an access are blocks that were put, each once, so a stash with room for as many as are ever
put does not overflow, whatever the random choices. And it has to be as large: the leaves may all fall together, and then
every block that was put comes into the stash.

- `demand_le`: what an access brings together are blocks that were put.
- `session_returns`: **with room for the blocks that are put, no session throws.**
- `stash_size_iff`: **the exact size.** Sessions of batches of fewer than 2^32 requests that put at most K blocks return in
  every world if and only if the stash has room for K blocks.
- `same_shape_same_law`: with such a stash, sessions of the same shape show the same trace with the same probability.
-/
import PathOram.Obliviousness
import PathOram.Overflow

namespace PathOram

open Lib
open scoped ENNReal

/-- the IDs that calls put -/
def putIds (calls : List Call) : Finset ℕ :=
  (((calls.flatMap Call.ops).filter fun op => !op.read).map Op.block).toFinset

theorem mem_putIds {calls : List Call} {id : ℕ} :
    id ∈ putIds calls ↔ ∃ call ∈ calls, ∃ op ∈ call.ops, op.read = false ∧ op.block = id := by
  simp only [putIds, List.mem_toFinset, List.mem_map, List.mem_filter, List.mem_flatMap, Bool.not_eq_true']
  constructor
  · rintro ⟨op, ⟨⟨call, hcall, hop⟩, hread⟩, rfl⟩
    exact ⟨call, hcall, op, hop, hread, rfl⟩
  · rintro ⟨call, hcall, op, hop, hread, rfl⟩
    exact ⟨op, ⟨⟨call, hcall, hop⟩, hread⟩, rfl⟩

namespace LawfulOram

variable {β : Type} {mapCapacity : ℕ} {O : Oram β (PositionArray mapCapacity)} {L : LawfulOram O} {v : View} {c : Contents}
  {s : OramState β (PositionArray mapCapacity)} {w : World} {ids : Finset ℕ}

/-- the IDs on the path of a block and in the stash, as one set -/
theorem exists_together (hL : L.OnArray) (hv : Shape O v) (hu : Unique v) (hs : L.Sees v s) {block : ℕ}
    (hb : block < 2 ^ O.height * O.Z) : ∃ together : Finset ℕ,
      together.card = s.stash.size + (O.pathBlocks L.storage s block).length ∧
      (∀ id, id ∈ together ↔ id ∈ s.stash ∨ id ∈ (O.pathBlocks L.storage s block).map Prod.fst) := by
  have hblocks : ∀ x, x ∈ (path O.height (v.pos block)).flatMap v.tree ↔ ∃ ℓ ∈ path O.height (v.pos block), x ∈ v.tree ℓ :=
    fun x => List.mem_flatMap
  exact ⟨_, card_union_path hL hv hu hs hb hblocks⟩

/-- the blocks of the stash are held -/
theorem held_of_mem_stash (hv : Inv O c v) (hs : L.Sees v s) {id : ℕ} (h : id ∈ s.stash) : c id ≠ none := by
  obtain ⟨d, hd⟩ := UnorderedMap.mem_iff_lookup.1 h
  obtain ⟨p, hp, -⟩ := hv.stash_good id d ((congrFun hs.stash id).trans hd)
  simp [hp]

/-- so are those on a path -/
theorem held_of_mem_path (hL : L.OnArray) (hv : Inv O c v) (hs : L.Sees v s) {block id : ℕ}
    (hb : block < 2 ^ O.height * O.Z) (h : id ∈ (O.pathBlocks L.storage s block).map Prod.fst) : c id ≠ none := by
  rw [pathBlocks_ids hL hv.toShape hs hb, List.mem_flatMap] at h
  obtain ⟨ℓ, -, hid⟩ := h
  obtain ⟨x, hx, rfl⟩ := List.mem_map.1 hid
  obtain ⟨hx, hne⟩ := List.mem_filter.1 hx
  obtain ⟨p, hp, -⟩ := hv.tree_good ℓ x hx (of_decide_eq_true hne)
  simp [hp]

/-- **What an access brings together** are blocks that are held, and the one that it puts. -/
theorem demand_le (hL : L.OnArray) (hv : Inv O c v) (hu : Unique v) (hs : L.Sees v s) {op : Op} (hop : op.Valid O)
    (hheld : ∀ id, c id ≠ none → id ∈ ids) (hput : op.read = false → op.block ∈ ids) :
    O.demand L.storage s op ≤ ids.card := by
  obtain ⟨together, hcard, hmem⟩ := exists_together hL hv.toShape hu hs hop.block_lt
  have hsub : together ⊆ ids := by
    intro id hid
    apply hheld
    rcases (hmem id).1 hid with h | h
    · exact held_of_mem_stash hv hs h
    · exact held_of_mem_path hL hv hs hop.block_lt h
  rw [Oram.demand, ← hcard, Oram.newcomers]
  split_ifs with hnew
  · have hnot : op.block ∉ together := fun h => ((hmem _).1 h).elim hnew.2.1 hnew.2.2
    rw [← Finset.card_insert_of_notMem hnot]
    exact Finset.card_le_card (Finset.insert_subset (hput hnew.1) hsub)
  · exact Finset.card_le_card hsub

/-! ## With room for what is put -/

/-- the state holds the contents, each block once, and the stash is not over its capacity -/
def Roomy (L : LawfulOram O) (c : Contents) (s : OramState β (PositionArray mapCapacity)) : Prop :=
  ∃ v, (Inv O c v ∧ Unique v ∧ L.Sees v s) ∧ s.stash.size ≤ O.stash.capacity

section Roomy

variable (hL : L.OnArray) (hsmall : O.Small) (hfault : ∀ e, ¬ L.storage.fault e) (hroom : ids.card ≤ O.stash.capacity)

/-- a property of the stash that its methods keep -/
theorem access_bounded (L : LawfulOram O) (read : Bool) (block : ℕ) (data response : Bytes) :
    Triple (fun s => s.stash.size ≤ O.stash.capacity) (O.access read block data response)
      (fun _ s => s.stash.size ≤ O.stash.capacity) (fun _ s => s.stash.size ≤ O.stash.capacity) :=
  (bounded_steady O).access (fun _ _ _ => Triple.zoom_keeps (OramState.mapLens _ _) (fun _ _ h => h) _)
    (by rw [L.shlOne_eq]; exact Nat.two_pow_pos _) read block data response

include hL hfault

/-- what a batch does before its accesses does not throw -/
theorem prepare_proceeds (hv : Shape O v) {requests : List Block} (hr : ∀ r ∈ requests, r.1 < 2 ^ O.height * O.Z) :
    Triple (fun s => L.Sees v s ∧ s.stash.size ≤ O.stash.capacity) (O.prepare requests)
      (fun _ s => (∃ v', Prepared O v v' ∧ L.Sees v' s) ∧ s.stash.size ≤ O.stash.capacity) (fun _ _ => False) := by
  have hrefines : Triple (L.Sees v) (O.prepare requests) (fun _ s => ∃ v', Prepared O v v' ∧ L.Sees v' s) (fun _ _ => False) :=
    Triple.conseq (prepare_refines L hv hr) (fun _ h => h) (fun _ _ h => h) fun e s h =>
      h.elim (hL.err e) fun ⟨_, hf, _⟩ => hfault e hf.1
  exact (hrefines.and ((bounded_steady O).prepare requests)).conseq (fun _ h => h) (fun _ _ h => h) fun _ _ h => h.1

/-- nor does an upload -/
theorem syncCache_proceeds (hv : Shape O v) :
    Triple (fun s => L.Sees v s ∧ s.stash.size ≤ O.stash.capacity) O.syncCache
      (fun _ s => (∃ v', Synced O v v' ∧ L.Sees v' s) ∧ s.stash.size ≤ O.stash.capacity) (fun _ _ => False) := by
  have hrefines : Triple (L.Sees v) O.syncCache (fun _ s => ∃ v', Synced O v v' ∧ L.Sees v' s) (fun _ _ => False) :=
    Triple.conseq (syncCache_refines (hv.flushable L)) (fun _ h => h) (fun _ _ h => h) fun e s h =>
      h.elim (hL.err e) fun ⟨_, hf, _⟩ => hfault e hf.1
  have hbounded : Triple (fun s : OramState β (PositionArray mapCapacity) => s.stash.size ≤ O.stash.capacity) O.syncCache
      (fun _ s => s.stash.size ≤ O.stash.capacity) (fun _ s => s.stash.size ≤ O.stash.capacity) :=
    syncCache_keeps (fun _ _ h => h) fun _ _ h => h
  exact (hrefines.and hbounded).conseq (fun _ h => h) (fun _ _ h => h) fun _ _ h => h.1

include hsmall hroom

/-- **An access returns.** -/
theorem access_returns {op : Op} (hop : op.Valid O) (hheld : ∀ id, c id ≠ none → id ∈ ids)
    (hput : op.read = false → op.block ∈ ids) :
    Triple (L.Roomy c) (O.access op.read op.block op.data []) (fun _ => L.Roomy (c.apply op)) (fun _ _ => False) := by
  rintro w s ⟨v, ⟨hv, hu, hs⟩, hle⟩
  have hdemand := demand_le hL hv hu hs hop hheld hput
  rcases access_outcome (w := w) hL hv hu hs hle hop with ⟨e, w', s', -, he⟩ | ⟨-, r, w', s', ha⟩ | ⟨hover, -⟩
  · exact absurd he (hfault e)
  · rw [ha]
    obtain ⟨v', ha', hs'⟩ := Triple.ok (access_refines hv.toShape hop.block_lt []) hs ha
    exact ⟨v', ⟨(inv_accessed L hsmall hv hop ha').1, unique_accessed L hsmall hv hu hop ha', hs'⟩,
      (access_bounded L _ _ _ _).ok hle ha⟩
  · omega

/-- accesses in turn return -/
theorem accessList_returns {requests : List Block} (hr : ∀ r ∈ requests, Op.Valid O ⟨r.2.length == 0, r.1, r.2⟩)
    (hheld : ∀ id, c id ≠ none → id ∈ ids) (hput : ∀ r ∈ requests, (r.2.length == 0) = false → r.1 ∈ ids) :
    Triple (L.Roomy c) ((requests.zip (List.replicate requests.length [])).mapM fun r =>
        O.access (r.1.2.length == 0) r.1.1 r.1.2 r.2)
      (fun _ => L.Roomy (c.after (requests.map fun r => ⟨r.2.length == 0, r.1, r.2⟩))) (fun _ _ => False) := by
  induction requests generalizing c with
  | nil => exact Triple.pure fun _ hs => hs
  | cons r requests ih =>
    rw [List.length_cons, List.replicate_succ, List.zip_cons_cons, List.mapM_cons]
    have hfirst := access_returns hL hsmall hfault hroom (hr r List.mem_cons_self) hheld (hput r List.mem_cons_self)
    apply hfirst.bind
    intro a
    have hheld' : ∀ id, c.apply ⟨r.2.length == 0, r.1, r.2⟩ id ≠ none → id ∈ ids := by
      intro id hid
      rw [← Contents.after_nil (c.apply _), ← Contents.after_cons, after_ne_none] at hid
      rcases hid with hid | ⟨op, hop, hread, rfl⟩
      · exact hheld id hid
      · rw [List.mem_singleton.1 hop] at hread ⊢
        exact hput r List.mem_cons_self hread
    apply (ih (fun r hm => hr r (List.mem_cons_of_mem _ hm)) hheld' fun r hm => hput r (List.mem_cons_of_mem _ hm)).bind
    intro as
    exact Triple.pure fun _ hs => hs

/-- the accesses of a call return -/
theorem accesses_return {call : Call} (hcall : call.Valid O) (hshort : call.batch.length < 2 ^ 32)
    (hheld : ∀ id, c id ≠ none → id ∈ ids) (hput : ∀ op ∈ call.ops, op.read = false → op.block ∈ ids) :
    Triple (L.Roomy c) (O.accesses call) (fun _ => L.Roomy (c.after call.ops)) (fun _ _ => False) := by
  have hone : ∀ op : Op, call.ops = [op] → call.batch = [] →
      Triple (L.Roomy c) (O.accesses call) (fun _ => L.Roomy (c.after call.ops)) (fun _ _ => False) := by
    intro op hops hbatch
    have hmem : op ∈ call.ops := hops ▸ List.mem_singleton_self op
    rw [accesses_single O hops hbatch, hops]
    exact (access_returns hL hsmall hfault hroom (hcall.1 op hmem) hheld (hput op hmem)).bind fun _ =>
      Triple.pure fun _ hs => hs
  cases call with
  | get block => exact hone ⟨true, block, []⟩ rfl rfl
  | put block data => exact hone ⟨false, block, data⟩ rfl rfl
  | multiple requests =>
    have hr : ∀ r ∈ requests, Op.Valid O ⟨r.2.length == 0, r.1, r.2⟩ := fun r hm => hcall.1 _ (List.mem_map_of_mem hm)
    have hput' : ∀ r ∈ requests, (r.2.length == 0) = false → r.1 ∈ ids := fun r hm => hput _ (List.mem_map_of_mem hm)
    have hprepare : Triple (L.Roomy c) (O.prepare requests) (fun _ => L.Roomy c) (fun _ _ => False) := by
      rintro w s ⟨v, ⟨hv, hu, hs⟩, hle⟩
      refine (prepare_proceeds hL hfault hv.toShape fun r hm => (hr r hm).block_lt).post ?_ w s ⟨hs, hle⟩
      rintro _ s' ⟨⟨v', hp, hs'⟩, hle'⟩
      exact ⟨v', ⟨inv_prepared hv hp, unique_prepared hu hp, hs'⟩, hle'⟩
    refine Triple.ite (fun hlong => absurd hcall.2 (not_le.2 hlong)) fun _ => ?_
    apply hprepare.bind
    intro _
    rw [@serve_eq _ _ O requests hshort]
    exact accessList_returns hL hsmall hfault hroom hr hheld hput'

omit hsmall hroom in
/-- an upload returns -/
theorem syncCache_returns :
    Triple (L.Roomy c) O.syncCache (fun _ s => L.HoldsOnce c s ∧ s.stash.size ≤ O.stash.capacity) (fun _ _ => False) := by
  rintro w s ⟨v, ⟨hv, hu, hs⟩, hle⟩
  refine (syncCache_proceeds hL hfault hv.toShape).post ?_ w s ⟨hs, hle⟩
  rintro _ s' ⟨⟨v', hsynced, hs'⟩, hle'⟩
  have hv' := inv_synced hv hsynced
  have hu' := unique_synced hu hsynced
  obtain ⟨requests, sent, -, -, -, rfl⟩ := hsynced
  exact ⟨⟨_, hv', hu', rfl, hs'⟩, hle'⟩

/-- **A call returns.** -/
theorem call_returns {call : Call} (hcall : call.Valid O) (hshort : call.batch.length < 2 ^ 32)
    (hheld : ∀ id, c id ≠ none → id ∈ ids) (hput : ∀ op ∈ call.ops, op.read = false → op.block ∈ ids) :
    Triple (fun s => L.HoldsOnce c s ∧ s.stash.size ≤ O.stash.capacity) (O.exec call)
      (fun _ s => L.HoldsOnce (c.after call.ops) s ∧ s.stash.size ≤ O.stash.capacity) (fun _ _ => False) := by
  rw [exec_eq]
  refine Triple.bind ((accesses_return hL hsmall hfault hroom hcall hshort hheld hput).pre ?_) fun rs =>
    (syncCache_returns hL hfault).bind fun _ => Triple.pure fun _ hs => hs
  rintro s ⟨⟨v, hv, hu, -, hs⟩, hle⟩
  exact ⟨v, ⟨hv, hu, hs⟩, hle⟩

/-- **Calls return.** -/
theorem calls_return {calls : List Call} (hcalls : ∀ call ∈ calls, call.Valid O)
    (hshort : ∀ call ∈ calls, call.batch.length < 2 ^ 32) (hheld : ∀ id, c id ≠ none → id ∈ ids) (hput : putIds calls ⊆ ids) :
    Triple (fun s => L.HoldsOnce c s ∧ s.stash.size ≤ O.stash.capacity) (O.run calls)
      (fun _ s => L.HoldsOnce (c.after (calls.flatMap Call.ops)) s ∧ s.stash.size ≤ O.stash.capacity) (fun _ _ => False) := by
  unfold Oram.run
  induction calls generalizing c with
  | nil => exact Triple.pure fun _ hs => hs
  | cons call calls ih =>
    have hput' : ∀ op ∈ call.ops, op.read = false → op.block ∈ ids := fun op hop hread =>
      hput (mem_putIds.2 ⟨call, List.mem_cons_self, op, hop, hread, rfl⟩)
    have hrest : putIds calls ⊆ ids := by
      intro id hid
      obtain ⟨call', hm, op, hop, hread, rfl⟩ := mem_putIds.1 hid
      exact hput (mem_putIds.2 ⟨call', List.mem_cons_of_mem _ hm, op, hop, hread, rfl⟩)
    have hheld' : ∀ id, c.after call.ops id ≠ none → id ∈ ids := by
      intro id hid
      rcases after_ne_none.1 hid with hid | ⟨op, hop, hread, rfl⟩
      · exact hheld id hid
      · exact hput' op hop hread
    rw [List.mapM_cons, List.flatMap_cons, Contents.after_append]
    have hcall := call_returns hL hsmall hfault hroom (hcalls call List.mem_cons_self) (hshort call List.mem_cons_self) hheld
      hput'
    apply hcall.bind
    intro reply
    apply (ih (fun call hm => hcalls call (List.mem_cons_of_mem _ hm)) (fun call hm => hshort call (List.mem_cons_of_mem _ hm))
      hheld' hrest).bind
    intro replies
    exact Triple.pure fun _ hs => hs

end Roomy

/-! ## With less room -/

/-- **When all leaves fall together**, so do all blocks: the stash has to take every block that is held. -/
theorem card_le_together (hL : L.OnArray) (hv : Inv O c v) (hu : Unique v) (hs : L.Sees v s) {block : ℕ}
    (hb : block < 2 ^ O.height * O.Z) (hheld : ∀ id ∈ ids, c id ≠ none) (hpos : ∀ id ∈ ids, v.pos id = v.pos block) :
    ids.card ≤ s.stash.size + (O.pathBlocks L.storage s block).length := by
  obtain ⟨together, hcard, hmem⟩ := exists_together hL hv.toShape hu hs hb
  rw [← hcard]
  apply Finset.card_le_card
  intro id hid
  obtain ⟨p, hp⟩ := Option.ne_none_iff_exists'.1 (hheld id hid)
  have hne : id ≠ ulongMax := ne_ulongMax L (hv.id_lt id p hp)
  apply (hmem id).2
  rcases hv.copy id p hp with ⟨d, hd⟩ | ⟨ℓ, x, hx, rfl⟩
  · exact Or.inl (UnorderedMap.mem_iff_lookup.2 ⟨d, (congrFun hs.stash id).symm.trans hd⟩)
  · right
    have hℓ : ℓ ∈ path O.height (v.pos block) := hpos x.1 hid ▸ hv.tree_path ℓ x hx hne
    rw [pathBlocks_ids hL hv.toShape hs hb, List.mem_flatMap]
    exact ⟨ℓ, hℓ, List.mem_map_of_mem (List.mem_filter.2 ⟨hx, decide_eq_true hne⟩)⟩

/-- **A put of a new block throws** if the stash has room for the others alone and all leaves are one. -/
theorem put_overflows (hL : L.OnArray) (hfault : ∀ e, ¬ L.storage.fault e) (hs : L.HoldsOnce c s)
    (hle : s.stash.size ≤ O.stash.capacity) (hheld : ∀ id ∈ ids, c id ≠ none) (hfull : O.stash.capacity ≤ ids.card)
    {leaf : ℕ} (hleaf : ∀ id < 2 ^ O.height * O.Z, leafOf s.map id = leaf) {block : ℕ} (hb : block < 2 ^ O.height * O.Z)
    (hnew : c block = none) : ((O.exec (.put block [])).exec w s).1 = .error (.overCapacity O.stash.capacity) := by
  obtain ⟨v, hv, hu, -, hsees⟩ := hs
  have hop : Op.Valid O ⟨false, block, []⟩ := ⟨hb, Nat.zero_le _⟩
  have hpos : ∀ id < 2 ^ O.height * O.Z, v.pos id = leaf := by
    intro id hid
    rw [← hleaf id hid, leafOf, hL.position hsees hid, Option.getD_some]
  have htogether := card_le_together hL hv hu hsees hb hheld fun id hid => by
    obtain ⟨p, hp⟩ := Option.ne_none_iff_exists'.1 (hheld id hid)
    rw [hpos id (hv.id_lt id p hp), hpos block hb]
  have hnewcomer : O.newcomers L.storage s ⟨false, block, []⟩ = 1 := by
    rw [Oram.newcomers, if_pos]
    exact ⟨rfl, fun h => held_of_mem_stash hv hsees h hnew, fun h => held_of_mem_path hL hv hsees hb h hnew⟩
  have hops : (Call.put block []).ops = [⟨false, block, []⟩] := rfl
  rcases exec_outcome (w := w) hL hv hu hsees hle hop hops rfl fun e _ => hfault e with ⟨hfits, -⟩ | ⟨-, hthrown⟩
  · rw [Oram.demand, hnewcomer] at hfits
    exact absurd hfull (not_le.2 (htogether.trans_lt (Nat.lt_of_succ_le hfits)))
  · exact hthrown

end LawfulOram

/-! ## Sessions -/

section

variable {β : Type} {S : StorageAdapter β} {mapCapacity stashCapacity height batchSize : ℕ}

/-- **A session returns** if the stash has room for the blocks that it puts, the storage does not throw, and each batch has
fewer than 2^32 requests. -/
theorem session_returns (h : Sizes S.toAbsStorageAdapter S.crypto mapCapacity height) (hsmall : 2 ^ height * S.Z ≤ 2 ^ 31)
    (L : LawfulBackend S.backend S.capacity S.blockSize) (hfault : ∀ e, ¬ L.fault e) {calls : List Call}
    (hcalls : ∀ call ∈ calls, call.Valid (arrayOram S mapCapacity stashCapacity height batchSize))
    (hshort : ∀ call ∈ calls, call.batch.length < 2 ^ 32) (hroom : (putIds calls).card ≤ stashCapacity) :
    Triple (fun s => Fresh s) ((arrayOram S mapCapacity stashCapacity height batchSize).session calls)
      (fun _ s => (arrayOram_lawful h L stashCapacity batchSize).HoldsOnce
        (Contents.after (fun _ => none) (calls.flatMap Call.ops)) s ∧ s.stash.size ≤ stashCapacity) (fun _ _ => False) := by
  have hL := arrayOram_onArray h L stashCapacity batchSize
  have hconstruct := (LawfulOram.construct_faults (arrayOram_lawful h L stashCapacity batchSize)).conseq
    (fun s hs => arrayOram_fresh h L stashCapacity batchSize hs) (fun _ s hs =>
      (⟨hs, (LawfulOram.size_of_holdsNothing hs).trans_le (Nat.zero_le stashCapacity)⟩ :
        (arrayOram_lawful h L stashCapacity batchSize).HoldsOnce (fun _ => none) s ∧ s.stash.size ≤ stashCapacity))
    fun e _ he => he.elim (hL.err e) (hfault e)
  exact hconstruct.bind fun _ => LawfulOram.calls_return hL hsmall hfault hroom hcalls hshort (fun id hid => absurd rfl hid)
    (Finset.Subset.refl _)

/-- puts of the first n blocks -/
def putFirst (n : ℕ) : List Call := (List.range n).map fun i => .put i []

theorem putIds_putFirst (n : ℕ) : putIds (putFirst n) = Finset.range n := by
  ext id
  simp [mem_putIds, putFirst, Call.ops]

theorem putFirst_succ (n : ℕ) : putFirst (n + 1) = putFirst n ++ [.put n []] := by
  simp [putFirst, List.range_succ]

theorem putFirst_valid {β μ : Type} {O : Oram β μ} {n : ℕ} (hn : n ≤ 2 ^ O.height * O.Z) :
    ∀ call ∈ putFirst n, call.Valid O := by
  intro call hcall
  obtain ⟨i, hi, rfl⟩ := List.mem_map.1 hcall
  refine ⟨fun op hop => ?_, Nat.zero_le _⟩
  rw [List.mem_singleton.1 hop]
  exact ⟨(List.mem_range.1 hi).trans_le hn, Nat.zero_le _⟩

theorem putFirst_short (n : ℕ) : ∀ call ∈ putFirst n, call.batch.length < 2 ^ 32 := by
  intro call hcall
  obtain ⟨i, -, rfl⟩ := List.mem_map.1 hcall
  exact Nat.two_pow_pos 32

theorem contents_putFirst (n id : ℕ) :
    Contents.after (fun _ => none) ((putFirst n).flatMap Call.ops) id ≠ none ↔ id < n := by
  rw [after_ne_none]
  simp [putFirst, Call.ops]

/-- a session throws what its last call throws -/
theorem session_concat_error {β μ : Type} {O : Oram β μ} {calls : List Call} {replies : List Reply} {w₀ w : World}
    {s₀ s : OramState β μ} (hrun : (O.session calls).exec w₀ s₀ = (.ok replies, w, s)) {call : Call} {e : Exception}
    (he : ((O.exec call).exec w s).1 = .error e) : ((O.session (calls ++ [call])).exec w₀ s₀).1 = .error e := by
  have hsession : O.session (calls ++ [call]) = O.session calls >>= fun replies => do
      let more ← O.run [call]
      return replies ++ more := by
    simp only [Oram.session, Oram.run, List.mapM_append, bind_assoc]
  rw [hsession, Prog.exec_bind_ok hrun, Oram.run, List.mapM_cons, Prog.exec_bind, Prog.exec_bind, Prog.exec_eq he]

/-- with room for what is put, an exception has no chance -/
theorem never_fails (h : Sizes S.toAbsStorageAdapter S.crypto mapCapacity height)
    (hsmall : 2 ^ height * S.Z ≤ 2 ^ 31) (L : LawfulBackend S.backend S.capacity S.blockSize) (hfault : ∀ e, ¬ L.fault e)
    {M : ℕ} [NeZero M] {s₀ : OramState β (PositionArray mapCapacity)} (hfresh : Fresh s₀) (orders : ℕ → ℕ)
    {calls : List Call} (hcalls : ∀ call ∈ calls, call.Valid (arrayOram S mapCapacity stashCapacity height batchSize))
    (hshort : ∀ call ∈ calls, call.batch.length < 2 ^ 32) (hroom : (putIds calls).card ≤ stashCapacity) :
    chance worldTape M ((arrayOram S mapCapacity stashCapacity height batchSize).session calls) orders s₀ Failed = 0 := by
  apply chance_of_forall_not
  rintro t ⟨e, he⟩
  have hreturns := session_returns h hsmall L hfault hcalls hshort hroom (worldTape.make t orders) s₀ hfresh
  rw [Prog.exec_eq he] at hreturns
  exact hreturns

/-- **A stash that is too small** overflows: the leaves that are drawn first may all be the same. -/
theorem overflows_with_chance (h : Sizes S.toAbsStorageAdapter S.crypto mapCapacity height)
    (hsmall : 2 ^ height * S.Z ≤ 2 ^ 31) (L : LawfulBackend S.backend S.capacity S.blockSize) (hfault : ∀ e, ¬ L.fault e)
    (B : SamplingBackend S.backend) {M : ℕ} [NeZero M] (hM : 2 ^ 64 ∣ M) {s₀ : OramState β (PositionArray mapCapacity)}
    (hfresh : Fresh s₀) (orders : ℕ → ℕ) (hfew : stashCapacity < 2 ^ height * S.Z) :
    0 < chance worldTape M ((arrayOram S mapCapacity stashCapacity height batchSize).session (putFirst (stashCapacity + 1)))
      orders s₀ fun r _ _ => r = .error (.overCapacity stashCapacity) := by
  set O := arrayOram S mapCapacity stashCapacity height batchSize with hO
  have hL := arrayOram_onArray h L stashCapacity batchSize
  have D := arrayOram_samples B mapCapacity stashCapacity height batchSize
  have hstart := arrayOram_fresh h L stashCapacity batchSize hfresh
  have hvalid : ∀ call ∈ putFirst stashCapacity, call.Valid O := putFirst_valid hfew.le
  have hroom : (putIds (putFirst stashCapacity)).card ≤ stashCapacity := by
    rw [putIds_putFirst, Finset.card_range]
  have hreturns : Triple _ (O.session (putFirst stashCapacity)) _ _ := session_returns h hsmall L hfault hvalid
    (putFirst_short stashCapacity) hroom
  -- the puts that fit return, and all leaves are zero with some probability
  let E : List Observation → List ℕ → Prop := fun _ leaves => ∀ leaf ∈ leaves, leaf = 0
  have hzero : 0 < uniformLaw S height (s₀.storage.calls.map StorageCall.observed)
      ((putFirst stashCapacity).map Call.shape) E :=
    share_pos List.length_replicate (fun x hx => by rw [List.eq_of_mem_replicate hx]; exact Nat.two_pow_pos _)
      fun leaf hleaf => List.eq_of_mem_replicate (List.mem_of_mem_drop hleaf)
  have hshowed : 0 < chance worldTape M (O.session (putFirst stashCapacity)) orders s₀ (Showed (2 ^ height * S.Z) E) := by
    have hge := LawfulOram.le_session_add_failed hM hL D hstart
      (fun call hcall op hop => ((hvalid call hcall).1 op hop).block_lt) orders E
    rw [never_fails h hsmall L hfault hfresh orders hvalid (putFirst_short stashCapacity) hroom, add_zero] at hge
    exact hzero.trans_le hge
  refine hshowed.trans_le (chance_le_chance fun t ht => ?_)
  obtain ⟨⟨replies, hok⟩, hleaves⟩ := ht
  have hrun := Prog.exec_eq hok
  obtain ⟨hholds, hle⟩ := hreturns.ok hfresh hrun
  rw [putFirst_succ]
  apply session_concat_error hrun
  have hfull : stashCapacity ≤ (Finset.range stashCapacity).card := (Finset.card_range stashCapacity).ge
  have hheld : ∀ id ∈ Finset.range stashCapacity,
      Contents.after (fun _ => none) ((putFirst stashCapacity).flatMap Call.ops) id ≠ none := fun id hid =>
    (contents_putFirst stashCapacity id).2 (Finset.mem_range.1 hid)
  have hsame : ∀ id < 2 ^ height * S.Z, leafOf (Prog.exec (O.session (putFirst stashCapacity)) (worldTape.make t orders)
      s₀).2.2.map id = 0 := fun id hid => hleaves _ (List.mem_map_of_mem (List.mem_range.2 hid))
  apply LawfulOram.put_overflows hL hfault hholds hle hheld hfull hsame hfew
  · by_contra hheld
    exact absurd ((contents_putFirst stashCapacity stashCapacity).1 hheld) (lt_irrefl _)

/-- **The exact size of a stash.** Without exceptions of the storage, all sessions of valid calls, with batches of fewer than
2^32 requests, that put at most K blocks return in every world if and only if the stash has room for K blocks; if it has not,
putting the first capacity + 1 blocks one after the other overflows it with some probability. -/
theorem stash_size_iff (h : Sizes S.toAbsStorageAdapter S.crypto mapCapacity height)
    (hsmall : 2 ^ height * S.Z ≤ 2 ^ 31) (L : LawfulBackend S.backend S.capacity S.blockSize) (hfault : ∀ e, ¬ L.fault e)
    (B : SamplingBackend S.backend) {M : ℕ} [NeZero M] (hM : 2 ^ 64 ∣ M) {s₀ : OramState β (PositionArray mapCapacity)}
    (hfresh : Fresh s₀) (orders : ℕ → ℕ) {K : ℕ} (hK : K ≤ 2 ^ height * S.Z) :
    ((∀ calls : List Call, (∀ call ∈ calls, call.Valid (arrayOram S mapCapacity stashCapacity height batchSize)) →
        (∀ call ∈ calls, call.batch.length < 2 ^ 32) → (putIds calls).card ≤ K → ∀ w₀, ∃ replies,
          (((arrayOram S mapCapacity stashCapacity height batchSize).session calls).exec w₀ s₀).1 = .ok replies) ↔
      K ≤ stashCapacity) ∧
    (stashCapacity < K →
      0 < chance worldTape M ((arrayOram S mapCapacity stashCapacity height batchSize).session (putFirst (stashCapacity + 1)))
        orders s₀ fun r _ _ => r = .error (.overCapacity stashCapacity)) := by
  set O := arrayOram S mapCapacity stashCapacity height batchSize with hO
  have hover : stashCapacity < K → 0 < chance worldTape M (O.session (putFirst (stashCapacity + 1))) orders s₀
      fun r _ _ => r = .error (.overCapacity stashCapacity) := fun hlt =>
    overflows_with_chance h hsmall L hfault B hM hfresh orders (hlt.trans_le hK)
  refine ⟨⟨fun hall => ?_, fun hroom calls hcalls hshort hcard w₀ => ?_⟩, hover⟩
  · by_contra hlt
    have hlt := not_le.1 hlt
    have hcard : (putIds (putFirst (stashCapacity + 1))).card ≤ K := by
      rw [putIds_putFirst, Finset.card_range]
      exact hlt
    obtain ⟨t, ht⟩ := exists_of_chance_pos (hover hlt)
    obtain ⟨replies, hok⟩ := hall _ (putFirst_valid (Nat.succ_le_of_lt (hlt.trans_le hK))) (putFirst_short _) hcard
      (worldTape.make t orders)
    rw [hok] at ht
    exact absurd ht (by simp)
  · have hreturns : Triple _ (O.session calls) _ _ := session_returns h hsmall L hfault hcalls hshort (hcard.trans hroom)
    replace hreturns := hreturns w₀ s₀ hfresh
    rcases hr : (O.session calls).exec w₀ s₀ with ⟨e | replies, w, s⟩
    · rw [hr] at hreturns
      exact hreturns.elim
    · exact ⟨replies, rfl⟩

/-- at the small ORAM with a stash of two blocks, for sessions that put three -/
theorem stash_size_iff_small :
    ((∀ calls : List Call, (∀ call ∈ calls, call.Valid (inMemoryOram smallStorage plainCrypto 4 2 2 4)) →
        (∀ call ∈ calls, call.batch.length < 2 ^ 32) → (putIds calls).card ≤ 3 → ∀ w₀, ∃ replies,
          (((inMemoryOram smallStorage plainCrypto 4 2 2 4).session calls).exec w₀ (zeroState smallStorage 4)).1 =
            .ok replies) ↔ 3 ≤ 2) ∧
    (2 < 3 → 0 < chance worldTape (2 ^ 64) ((inMemoryOram smallStorage plainCrypto 4 2 2 4).session (putFirst 3)) (fun _ => 0)
      (zeroState smallStorage 4) fun r _ _ => r = .error (.overCapacity 2)) :=
  stash_size_iff small_sizes (by decide) (inMemoryBackend_lawful 4 64) (fun _ hfault => hfault)
    (inMemoryBackend_samples 4 64) (dvd_refl _) (zeroState_fresh smallStorage 4) (fun _ => 0) (by decide)

/-- with room for what is put, the law of a session is uniform -/
theorem roomy_law (h : Sizes S.toAbsStorageAdapter S.crypto mapCapacity height)
    (hsmall : 2 ^ height * S.Z ≤ 2 ^ 31) (L : LawfulBackend S.backend S.capacity S.blockSize) (hfault : ∀ e, ¬ L.fault e)
    (B : SamplingBackend S.backend) {M : ℕ} [NeZero M] (hM : 2 ^ 64 ∣ M) {s₀ : OramState β (PositionArray mapCapacity)}
    (hfresh : Fresh s₀) (orders : ℕ → ℕ) {calls : List Call}
    (hcalls : ∀ call ∈ calls, call.Valid (arrayOram S mapCapacity stashCapacity height batchSize))
    (hshort : ∀ call ∈ calls, call.batch.length < 2 ^ 32) (hroom : (putIds calls).card ≤ stashCapacity)
    (E : List Observation → List ℕ → Prop) :
    chance worldTape M ((arrayOram S mapCapacity stashCapacity height batchSize).session calls) orders s₀
        (Showed (2 ^ height * S.Z) E) =
      uniformLaw S height (s₀.storage.calls.map StorageCall.observed) (calls.map Call.shape) E := by
  have hL := arrayOram_onArray h L stashCapacity batchSize
  have D := arrayOram_samples B mapCapacity stashCapacity height batchSize
  have hstart := arrayOram_fresh h L stashCapacity batchSize hfresh
  have hown : ∀ call ∈ calls, ∀ op ∈ call.ops, op.block < 2 ^ height * S.Z := fun call hcall op hop =>
    ((hcalls call hcall).1 op hop).block_lt
  have hge := LawfulOram.le_session_add_failed hM hL D hstart hown orders E
  rw [never_fails h hsmall L hfault hfresh orders hcalls hshort hroom, add_zero] at hge
  exact le_antisymm (LawfulOram.session_le hM hL D hstart hown orders E) hge

/-- a session with an endless batch shows nothing, because it does not return -/
theorem showed_of_endless {n M : ℕ} [NeZero M] {O : Oram β (PositionArray mapCapacity)}
    {s₀ : OramState β (PositionArray mapCapacity)} (orders : ℕ → ℕ) {calls : List Call}
    (hendless : ∃ call ∈ calls, call.Endless) (E : List Observation → List ℕ → Prop) : chance worldTape M (O.session calls) orders s₀ (Showed n E) = 0 := by
  apply chance_of_forall_not
  rintro t ⟨⟨replies, hok⟩, -⟩
  obtain ⟨call, hm, hlong⟩ := hendless
  exact (LawfulOram.session_ends calls).ok trivial (Prog.exec_eq hok) call hm hlong

end

theorem shape_ops (call : Call) : call.shape.1 + call.shape.2 = call.ops.length :=
  (shape_sum call.ids).trans (List.length_map _)

/-- whether a call is endless is told by its shape -/
theorem endless_iff_shape (call : Call) : call.Endless ↔ 2 ^ 32 ≤ call.shape.1 + call.shape.2 := by
  rw [shape_ops, Call.Endless]
  cases call with
  | get block => simp [Call.batch, Call.ops]
  | put block data => simp [Call.batch, Call.ops]
  | multiple requests => rw [Call.batch, Call.ops, List.length_map]

theorem endless_of_same_shape {calls calls' : List Call} (hshape : calls.map Call.shape = calls'.map Call.shape)
    (h : ∃ call ∈ calls, call.Endless) : ∃ call ∈ calls', call.Endless := by
  obtain ⟨call, hm, hlong⟩ := h
  obtain ⟨call', hm', hsame⟩ := List.mem_map.1 (hshape ▸ List.mem_map_of_mem hm)
  exact ⟨call', hm', (endless_iff_shape call').2 (hsame ▸ (endless_iff_shape call).1 hlong)⟩

/-- the law is one of the sizes of the storage alone -/
theorem uniformLaw_of_same_sizes {β β' : Type} {S : StorageAdapter β} {S' : StorageAdapter β'} (hZ : S.Z = S'.Z)
    (hcapacity : S.capacity = S'.capacity) (hblockSize : S.blockSize = S'.blockSize) :
    uniformLaw S = uniformLaw S' := by
  funext height seen shapes E
  rw [uniformLaw, uniformLaw, hZ, hcapacity, hblockSize]

/-- **Sessions of the same shape cannot be told apart.** Two ORAMs with trees and buckets of the same sizes, over any
providers that do not throw, any ciphers, maps and stashes, with room for the blocks that are put: if the calls of two
sessions are valid and agree in how many blocks they name and how often they repeat one, whatever is asked of the trace and of
the positions left has the same probability in both. -/
theorem same_shape_same_law {β β' : Type} {S : StorageAdapter β} {S' : StorageAdapter β'}
    {mapCapacity mapCapacity' stashCapacity stashCapacity' height batchSize batchSize' M M' : ℕ} [NeZero M] [NeZero M']
    (hM : 2 ^ 64 ∣ M) (hM' : 2 ^ 64 ∣ M') (h : Sizes S.toAbsStorageAdapter S.crypto mapCapacity height)
    (h' : Sizes S'.toAbsStorageAdapter S'.crypto mapCapacity' height) (hZ : S.Z = S'.Z) (hcapacity : S.capacity = S'.capacity)
    (hblockSize : S.blockSize = S'.blockSize) (hsmall : 2 ^ height * S.Z ≤ 2 ^ 31)
    (L : LawfulBackend S.backend S.capacity S.blockSize) (L' : LawfulBackend S'.backend S'.capacity S'.blockSize)
    (hfault : ∀ e, ¬ L.fault e) (hfault' : ∀ e, ¬ L'.fault e) (B : SamplingBackend S.backend)
    (B' : SamplingBackend S'.backend) {s₀ : OramState β (PositionArray mapCapacity)}
    {s₀' : OramState β' (PositionArray mapCapacity')} (hfresh : Fresh s₀) (hfresh' : Fresh s₀')
    (hseen : s₀.storage.calls.map StorageCall.observed = s₀'.storage.calls.map StorageCall.observed) (orders orders' : ℕ → ℕ)
    {calls calls' : List Call} (hcalls : ∀ call ∈ calls, call.Valid (arrayOram S mapCapacity stashCapacity height batchSize))
    (hcalls' : ∀ call ∈ calls', call.Valid (arrayOram S' mapCapacity' stashCapacity' height batchSize'))
    (hroom : (putIds calls).card ≤ stashCapacity) (hroom' : (putIds calls').card ≤ stashCapacity')
    (hshape : calls.map Call.shape = calls'.map Call.shape) (E : List Observation → List ℕ → Prop) :
    chance worldTape M ((arrayOram S mapCapacity stashCapacity height batchSize).session calls) orders s₀
        (Showed (2 ^ height * S.Z) E) =
      chance worldTape M' ((arrayOram S' mapCapacity' stashCapacity' height batchSize').session calls') orders' s₀'
        (Showed (2 ^ height * S.Z) E) := by
  have hsmall' : 2 ^ height * S'.Z ≤ 2 ^ 31 := hZ ▸ hsmall
  -- a batch without an end keeps both sessions from returning
  by_cases hendless : ∃ call ∈ calls, call.Endless
  · rw [showed_of_endless orders hendless, showed_of_endless orders' (endless_of_same_shape hshape hendless)]
  have hshort : ∀ call ∈ calls, call.batch.length < 2 ^ 32 := fun call hm =>
    not_le.1 fun hlong => hendless ⟨call, hm, hlong⟩
  have hshort' : ∀ call ∈ calls', call.batch.length < 2 ^ 32 := fun call hm =>
    not_le.1 fun hlong => hendless (endless_of_same_shape hshape.symm ⟨call, hm, hlong⟩)
  calc chance worldTape M ((arrayOram S mapCapacity stashCapacity height batchSize).session calls) orders s₀
        (Showed (2 ^ height * S.Z) E)
      = uniformLaw S height (s₀.storage.calls.map StorageCall.observed) (calls.map Call.shape) E :=
        roomy_law h hsmall L hfault B hM hfresh orders hcalls hshort hroom E
    _ = uniformLaw S' height (s₀'.storage.calls.map StorageCall.observed) (calls'.map Call.shape) E := by
        rw [uniformLaw_of_same_sizes hZ hcapacity hblockSize, hseen, hshape]
    _ = chance worldTape M' ((arrayOram S' mapCapacity' stashCapacity' height batchSize').session calls') orders' s₀'
          (Showed (2 ^ height * S.Z) E) := by
        rw [hZ]
        exact (roomy_law h' hsmall' L' hfault' B' hM' hfresh' orders' hcalls' hshort' hroom' E).symm

/-- At the small ORAM: what is shown when block 0 is put and read again, over arrays, is what is shown when block 3 is read
and block 1 is put, over a file. -/
theorem same_shape_same_law_small :
    chance worldTape (2 ^ 64) ((inMemoryOram smallStorage plainCrypto 4 1 2 4).session [.put 0 [7], .get 0]) (fun _ => 0)
        (zeroState smallStorage 4) (Showed 4 fun trace _ => trace.length = 5) =
      chance worldTape (2 ^ 64) ((fileOram smallStorage plainCrypto 4 2 2 4).session [.get 3, .put 1 []]) (fun _ => 0)
        (emptyFile smallStorage 4) (Showed 4 fun trace _ => trace.length = 5) :=
  have hsame : smallOram.storage.blockSize = (fileStorage smallStorage plainCrypto).blockSize := rfl
  have hfile : Sizes (fileStorage smallStorage plainCrypto).toAbsStorageAdapter
      (fileStorage smallStorage plainCrypto).crypto 4 2 := small_sizes
  same_shape_same_law (S := smallOram.storage) (dvd_refl _) (dvd_refl _) small_sizes hfile rfl rfl hsame (by decide)
    (inMemoryBackend_lawful 4 64) (fileBackend_lawful 4 64) (fun _ hfault => hfault) (fun _ hfault => hfault)
    (inMemoryBackend_samples 4 64) (fileBackend_samples 4 64) (zeroState_fresh smallStorage 4)
    (emptyFile_fresh smallStorage 4) rfl (fun _ => 0) (fun _ => 0) (by decide) (by decide) (by decide) (by decide)
    (by decide) fun trace _ => trace.length = 5

end PathOram
