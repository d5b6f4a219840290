/-
Construction, and runs of calls.

- `construct_triple`: an initialised ORAM holds nothing, every position is a leaf and every bucket is empty.
- `exec_triple`, `run_triple`: **the ORAM refines the map.** From a state that holds contents, calls that return reply
  like the map and leave a state that holds the contents they wrote, each block once and the cache empty.

All of it is for any provider and any position map that keep their contracts; what a call can throw (`Throws`) is what
these throw and the overflow of the stash. Only a batch that is `Endless` does neither.
-/
import PathOram.Uniqueness

namespace PathOram

open Lib

namespace LawfulOram

variable {β μ : Type} {O : Oram β μ} (L : LawfulOram O) {c : Contents}

/-- between calls: the state holds the contents c, each block once, and nothing is cached -/
def HoldsOnce (c : Contents) (s : OramState β μ) : Prop :=
  ∃ v, Inv O c v ∧ Unique v ∧ v.cached = (fun _ => false) ∧ L.Sees v s

/-- what a call can throw -/
def Throws (e : Exception) : Prop := L.map.err e ∨ AccessFault L e

/-- what calls can stop with: what they throw, or never, which only an endless batch does -/
def Stops (calls : List Call) (e : Exception) : Prop := L.Throws e ∨ e = .diverges ∧ ∃ call ∈ calls, call.Endless

theorem Stops.mono {L : LawfulOram O} {calls calls' : List Call} (hsub : calls ⊆ calls') {e : Exception}
    (h : L.Stops calls e) : L.Stops calls' e :=
  h.imp_right fun ⟨hdiverges, call, hm, hcall⟩ => ⟨hdiverges, call, hsub hm, hcall⟩

theorem Stops.throws_single {L : LawfulOram O} {call : Call} {e : Exception} (h : L.Stops [call] e)
    (hbatch : call.batch = []) : L.Throws e :=
  h.resolve_right fun ⟨_, _, hm, hcall⟩ => Call.not_endless hbatch (List.mem_singleton.1 hm ▸ hcall)

/-- when nothing is cached, the tree is what the storage has -/
theorem Sees.decode {L : LawfulOram O} {v : View} {s : OramState β μ} (hs : L.Sees v s) (hc : v.cached = fun _ => false) :
    s.cache = ∅ ∧ ∀ ℓ < O.storage.capacity, O.storage.decodeBucket (L.storage.raw s.storage.backend ℓ) = .ok (v.tree ℓ) := by
  have hempty : s.cache = ∅ := by
    have hn : ∀ ℓ, ℓ ∉ s.cache := fun ℓ => by
      have hℓ := congrFun (hc.symm.trans hs.cached) ℓ
      exact of_decide_eq_false hℓ.symm
    refine AList.ext (List.eq_nil_iff_forall_not_mem.2 ?_)
    exact fun x hx => hn x.1 (List.mem_map_of_mem hx)
  obtain ⟨store, hstore, htree⟩ := hs.tree
  refine ⟨hempty, fun ℓ hℓ => ?_⟩
  rw [htree, hempty]
  exact hstore.1 ℓ hℓ

/-! ## Construction -/

/-- before the constructor runs: nothing in the stash and the cache, and a map of which nothing is known -/
structure Fresh (s : OramState β μ) : Prop where
  stash : s.stash = ∅
  cache : s.cache = ∅
  map : ∃ calls, L.map.Rep (fun _ => none) calls s.map

/-- the buckets after `fillWithZeroes` -/
def emptyTree (O : Oram β μ) (ℓ : ℕ) : Bucket := if ℓ < O.storage.capacity then O.storage.emptyBucket else []

/-- the map is written for all IDs but those to come -/
def Mapping (todo : List ℕ) (s : OramState β μ) : Prop :=
  (∃ p calls, L.map.Rep p calls s.map ∧
    ∀ i < 2 ^ O.height * O.Z, i ∉ todo → ∃ leaf < 2 ^ (O.height - 1), p i = some leaf) ∧
  s.stash = ∅ ∧ s.cache = ∅ ∧ ∃ calls, StorageAdapter.Holds L.storage (emptyTree O) calls s.storage

variable {L}

theorem mem_emptyTree {ℓ : ℕ} {x : Block} (h : x ∈ emptyTree O ℓ) :
    x.1 = ulongMax ∧ x.2 = zeroPad O.storage.userBlockSize [] := by
  unfold emptyTree at h
  split_ifs at h
  · rw [StorageAdapter.emptyBucket] at h
    rw [List.eq_of_mem_replicate h]
    exact ⟨rfl, rfl⟩
  · simp at h

/-- an ORAM with nothing in it -/
def emptyView (O : Oram β μ) (pos : ℕ → ℕ) (mapCalls : List MapCall) (calls : List StorageCall) : View :=
  ⟨pos, fun _ => none, emptyTree O, fun _ => false, mapCalls, calls⟩

theorem inv_empty (L : LawfulOram O) {pos : ℕ → ℕ} (hpos : ∀ i < 2 ^ O.height * O.Z, pos i < 2 ^ (O.height - 1))
    (mapCalls : List MapCall) (calls : List StorageCall) : Inv O (fun _ => none) (emptyView O pos mapCalls calls) where
  pos_lt := hpos
  bucket_length ℓ hℓ := by
    rw [← L.Z_eq]
    simp [emptyView, emptyTree, StorageAdapter.emptyBucket, hℓ]
  tree_id ℓ x hx := Or.inl (mem_emptyTree hx).1
  tree_data ℓ x hx := by
    rw [(mem_emptyTree hx).2, length_zeroPad (Nat.zero_le _)]
  stash_id k d hk := by cases hk
  stash_data k d hk := by cases hk
  cached_lt ℓ hℓ := by cases hℓ
  stash_good k d hk := by cases hk
  tree_good ℓ x hx hne := absurd (mem_emptyTree hx).1 hne
  tree_path ℓ x hx hne := absurd (mem_emptyTree hx).1 hne
  id_lt k p hk := by cases hk
  copy k p hk := by cases hk

theorem unique_empty (pos : ℕ → ℕ) (mapCalls : List MapCall) (calls : List StorageCall) :
    Unique (emptyView O pos mapCalls calls) where
  stash k d hk := by cases hk
  bucket ℓ := by
    have hnil : (emptyTree O ℓ).filter (fun x => x.1 ≠ ulongMax) = [] :=
      List.filter_eq_nil_iff.2 fun x hx => by simp [(mem_emptyTree hx).1]
    change (((emptyTree O ℓ).filter fun x => x.1 ≠ ulongMax).map Prod.fst).Nodup
    rw [hnil]
    exact List.nodup_nil
  tree ℓ ℓ' x hx y hy he hne := absurd (mem_emptyTree hx).1 hne

/-- when all positions are written, the ORAM holds nothing -/
theorem holdsOnce_of_mapping {s : OramState β μ} (h : L.Mapping [] s) : L.HoldsOnce (fun _ => none) s := by
  obtain ⟨⟨p, mapCalls, hp, hpos⟩, hstash, hcache, calls, hstore⟩ := h
  choose! pos hlt hpos using fun i hi => hpos i hi List.not_mem_nil
  refine ⟨emptyView O pos mapCalls calls, inv_empty L (fun i hi => hlt i hi) mapCalls calls, unique_empty pos mapCalls calls,
    rfl, ⟨p, hp, fun i hi => hpos i hi⟩, ?_, ⟨emptyTree O, hstore, ?_⟩, ?_⟩
  · rw [hstash]
    rfl
  · rw [hcache]
    rfl
  · funext ℓ
    rw [hcache]
    exact (decide_eq_false (AList.notMem_empty ℓ)).symm

theorem mapSet_triple {i : ℕ} {todo : List ℕ} (hi : i < 2 ^ O.height * O.Z) :
    Triple (L.Mapping (i :: todo)) (do
        let leaf ← getRandomULong (shlOne (O.height - 1))
        Oram.onMap (O.map.set i leaf)) (fun _ => L.Mapping todo) (fun e _ => L.map.err e ∨ L.storage.fault e) := by
  have hdraw : 0 < shlOne (O.height - 1) := by
    rw [L.shlOne_eq]
    exact Nat.two_pow_pos _
  apply (getRandomULong_triple hdraw).bind
  intro leaf
  apply Triple.of_pure
  intro hleaf
  rw [L.shlOne_eq] at hleaf
  rintro w s ⟨⟨p, calls, hp, hpos⟩, hframe⟩
  have hleaf64 : leaf < 2 ^ 64 := hleaf.trans_le (L.leaves_le.trans (by norm_num))
  have hz := Triple.zoom_frame (OramState.mapLens β μ) (L.map.set p calls i leaf hi hleaf64)
    (F := fun s => s.stash = ∅ ∧ s.cache = ∅ ∧ ∃ calls, StorageAdapter.Holds L.storage (emptyTree O) calls s.storage)
    (fun _ _ h => h)
  refine (hz.conseq (fun _ h => h) (fun _ s' h => ?_) fun e s' h => Or.inl h.1) w s ⟨hp, hframe⟩
  refine ⟨⟨_, _, h.1, fun j hj hn => ?_⟩, h.2⟩
  rcases eq_or_ne j i with rfl | hne
  · exact ⟨leaf, hleaf, Function.update_self _ _ _⟩
  · rw [Function.update_of_ne hne]
    exact hpos j hj (by simp [hne, hn])

/-- the construction throws what the adapters throw -/
theorem construct_faults (L : LawfulOram O) :
    Triple L.Fresh O.construct (fun _ => L.HoldsOnce fun _ => none) (fun e _ => L.map.err e ∨ L.storage.fault e) := by
  unfold Oram.construct
  refine Triple.bind (Q := fun _ => L.Mapping (List.range O.blocks)) ?_ fun _ => ?_
  · have hz := Triple.zoom_frame (OramState.storageLens β μ)
      (StorageAdapter.fillWithZeroes_triple (L := L.storage) L.crypto (P := fun _ => True))
      (F := fun s => L.Fresh s) (fun _ _ h => ⟨h.stash, h.cache, h.map⟩)
    refine hz.conseq (fun s h => ⟨trivial, h⟩) (fun _ s h => ?_) fun e s h => Or.inr h.1
    obtain ⟨calls, hcalls⟩ := h.2.map
    refine ⟨⟨_, calls, hcalls, fun i hi hn => ?_⟩, h.2.stash, h.2.cache, h.1⟩
    rw [L.blocks_eq, List.mem_range] at hn
    exact absurd hi hn
  · refine Triple.post (Triple.forM (fun todo => L.Mapping todo) fun i todo hm => ?_) fun _ s h => holdsOnce_of_mapping h
    refine mapSet_triple ?_
    rw [← L.blocks_eq]
    exact List.mem_range.1 (hm.subset List.mem_cons_self)

/-- **An initialised ORAM holds nothing.** -/
theorem construct_triple (L : LawfulOram O) :
    Triple L.Fresh O.construct (fun _ => L.HoldsOnce fun _ => none) (fun e _ => L.Throws e) :=
  (construct_faults L).conseq (fun _ h => h) (fun _ _ h => h) fun _ _ h => h.imp_right Or.inl

/-! ## Runs -/

/-- a run that returns has no endless batch -/
theorem run_ends (calls : List Call) :
    Triple (fun _ => True) (O.run calls) (fun _ _ => ∀ call ∈ calls, ¬ call.Endless) (fun _ _ => True) := by
  have hcall : ∀ call ∈ calls, Triple (fun _ => True) (O.exec call) (fun _ _ => True ∧ ¬ call.Endless) (fun _ _ => True) :=
    fun call _ => (exec_ends call).post fun _ _ h => ⟨trivial, h⟩
  refine (Triple.mapM (R := fun call _ => ¬ call.Endless) hcall).post fun replies _ h call hm => ?_
  obtain ⟨reply, -, hends⟩ := exists_of_mem_right h.2.flip hm
  exact hends

theorem session_ends (calls : List Call) :
    Triple (fun _ => True) (O.session calls) (fun _ _ => ∀ call ∈ calls, ¬ call.Endless) (fun _ _ => True) :=
  (Triple.trivial _ _).bind fun _ => (run_ends calls).pre fun _ _ => trivial

theorem CallFault.stops {call : Call} {e : Exception} {s : OramState β μ}
    (h : L.Fails (fun e _ => CallFault L call e) e s) : L.Stops [call] e := by
  rcases h with h | ⟨v, h | h, -⟩
  · exact Or.inl (Or.inl h)
  · exact Or.inl (Or.inr h)
  · exact Or.inr ⟨h.1, call, List.mem_cons_self, h.2⟩

/-- **A call refines the map.** -/
theorem exec_triple (hsmall : O.Small) {call : Call} (hc : call.Valid O) :
    Triple (L.HoldsOnce c) (O.exec call) (fun reply s => c.Replies call reply ∧ L.HoldsOnce (c.after call.ops) s)
      (fun e _ => L.Stops [call] e) := by
  apply Triple.exists_pre
  intro v
  apply Triple.of_pure
  intro hv
  apply Triple.of_pure
  intro hu
  apply Triple.of_pure
  intro _
  refine Triple.conseq (exec_refines hv.toShape hc) (fun _ h => h) ?_ fun _ _ h => CallFault.stops h
  rintro reply s ⟨v', ⟨rs, rfl, hstep⟩, hs⟩
  obtain ⟨hv', hrs⟩ := inv_callStep L hsmall hv hc.1 hstep
  have hu' := unique_callStep L hsmall hv hu hc.1 hstep
  obtain ⟨v₁, v₂, -, -, requests, sent, -, -, -, rfl⟩ := hstep
  exact ⟨Contents.replies_of_answersAll hrs, _, hv', hu', rfl, hs⟩

/-- **A run refines the map.** -/
theorem run_triple (hsmall : O.Small) {calls : List Call} (hc : ∀ call ∈ calls, call.Valid O) :
    Triple (L.HoldsOnce c) (O.run calls)
      (fun replies s => c.RepliesAll calls replies ∧ L.HoldsOnce (c.after (calls.flatMap Call.ops)) s)
      (fun e _ => L.Stops calls e) := by
  unfold Oram.run
  induction calls generalizing c with
  | nil => exact Triple.pure fun s h => ⟨trivial, h⟩
  | cons call calls ih =>
    rw [List.mapM_cons]
    apply ((exec_triple hsmall (hc call List.mem_cons_self)).conseq (fun _ h => h) (fun _ _ h => h) fun _ _ he =>
      he.mono (List.cons_subset_cons call (List.nil_subset calls))).bind
    intro reply
    apply Triple.of_pure
    intro hreply
    apply ((ih fun call hm => hc call (List.mem_cons_of_mem _ hm)).conseq (fun _ h => h) (fun _ _ h => h) fun _ _ he =>
      he.mono (List.subset_cons_self call calls)).bind
    intro replies
    apply Triple.of_pure
    intro hreplies
    refine Triple.pure fun s h => ⟨⟨hreply, hreplies⟩, ?_⟩
    rw [List.flatMap_cons, Contents.after_append]
    exact h

end LawfulOram

end PathOram
