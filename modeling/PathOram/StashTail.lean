/-
How full the stash gets.

The blocks of the stash have a crown of full buckets below them, and all these blocks have survived the paths that were read
since. With uniform leaves such a crowd is unlikely, so a stash that is longer than R blocks is: the chance falls
geometrically in R, whatever the calls and however many they are, if a bucket takes five blocks and there are not more blocks
than half of the tree can take.

- `Recorded`: the state holds blocks that are packed as a log of the accesses says.
- `access_shadows`, `exec_shadows`, `run_shadows`: **the ORAM in the shadow of its accesses**, rehearsed.
- `stash_tail`: **the stash after a session.**
- `session_seldom_throws`: **a stash that need not take all blocks** overflows seldom, if no batch is endless.
- `default_seldom_throws`: the stash that the constructor with three arguments makes.
-/
import PathOram.DefaultOram
import PathOram.Lib.Crowds
import PathOram.Lib.Rehearsal
import PathOram.Lib.Shadow
import PathOram.Packing
import PathOram.StashSizing

namespace PathOram

open Lib
open scoped ENNReal

namespace LawfulOram

variable {β : Type} {mapCapacity : ℕ} {O : Oram β (PositionArray mapCapacity)} {L : LawfulOram O} {v : View} {c : Contents}
  {s s' : OramState β (PositionArray mapCapacity)} {w w' : World} {ids : Finset ℕ} {l : Log ℕ} {R : ℕ}

/-- the state holds contents of some IDs, each once, and packed as the log of the accesses says -/
structure Records (L : LawfulOram O) (ids : Finset ℕ) (s : OramState β (PositionArray mapCapacity)) (l : Log ℕ) (c : Contents)
    (v : View) : Prop where
  inv : Inv O c v
  unique : Unique v
  sees : L.Sees v s
  packed : Packed O l.reads v
  held : ∀ id, c id ≠ none → id ∈ ids ∧ id ∈ l.reads.map Prod.fst
  reads_lt : ∀ r ∈ l.reads, r.2 < 2 ^ (O.height - 1)
  pos : leafOf s.map = l.pos
  size_le : s.stash.size ≤ O.stash.capacity

def Recorded (L : LawfulOram O) (ids : Finset ℕ) (s : OramState β (PositionArray mapCapacity)) (l : Log ℕ) : Prop :=
  ∃ c v, L.Records ids s l c v

/-- the positions of the log are those of the view -/
theorem Records.pos_eq (hL : L.OnArray) (h : L.Records ids s l c v) {id : ℕ} (hid : id < 2 ^ O.height * O.Z) :
    v.pos id = l.pos id := by
  rw [← h.pos, leafOf, hL.position h.sees hid, Option.getD_some]

/-- there are more blocks than nodes have room for, and R, in a crown -/
def Swamped (O : Oram β (PositionArray mapCapacity)) (ids : Finset ℕ) (R : ℕ) (l : Log ℕ) : Prop :=
  Crowded O.height O.Z ids R l.reads l.pos

/-- **A long stash** sits on a crowd. -/
theorem swamped_of_size (hL : L.OnArray) (hids : ∀ id ∈ ids, id < 2 ^ O.height * O.Z) (h : L.Recorded ids s l)
    (hsize : R < s.stash.size) : Swamped O ids R l := by
  obtain ⟨c, v, h⟩ := h
  obtain ⟨T, hT, hne, kept, hkept, hsurvive, hcard⟩ := exists_crown L h.inv h.unique h.sees h.packed h.reads_lt h.held
  refine ⟨T, hT, hne (Nat.zero_lt_of_lt hsize), kept, hkept, fun id hid => ?_, by omega⟩
  rw [← h.pos_eq hL (hids id (hkept hid))]
  exact hsurvive id hid

section Access

variable (hL : L.OnArray) (hsmall : O.Small)

include hL hsmall

/-- **An access is logged.** -/
theorem recorded_access (h : L.Recorded ids s l) {op : Op} (hop : op.Valid O) (hput : op.read = false → op.block ∈ ids)
    {r : Bytes} (hexec : (O.access op.read op.block op.data []).exec w s = (.ok r, w', s')) :
    L.Recorded ids s' (l.access op.block (O.drawnLeaf w)) := by
  obtain ⟨c, v, h⟩ := h
  have hleaf := h.pos_eq hL hop.block_lt
  have hcap : op.block < mapCapacity := (Vector.getElem?_eq_some_iff.1 (hL.position h.sees hop.block_lt)).1
  obtain ⟨v', ha, hs'⟩ := Triple.ok (access_refines h.inv.toShape hop.block_lt []) h.sees hexec
  refine ⟨c.apply op, v', (inv_accessed L hsmall h.inv hop ha).1, unique_accessed L hsmall h.inv h.unique hop ha, hs', ?_, ?_,
    ?_, ?_, (access_bounded L _ _ _ _).ok h.size_le hexec⟩
  · rw [Log.access, ← hleaf]
    exact packed_accessed L hsmall h.inv h.packed hop ha
  · intro id hid
    rw [← Contents.after_nil (c.apply _), ← Contents.after_cons, after_ne_none] at hid
    rcases hid with hid | ⟨op', hop', hread, rfl⟩
    · exact ⟨(h.held id hid).1, List.mem_cons_of_mem _ (h.held id hid).2⟩
    · obtain rfl := List.mem_singleton.1 hop'
      exact ⟨hput hread, List.mem_cons_self⟩
  · intro read hread
    rcases List.mem_cons.1 hread with rfl | hread
    · rw [← hleaf]
      exact h.inv.pos_lt _ hop.block_lt
    · exact h.reads_lt read hread
  · rw [access_map hL hcap hexec, leafOf_setIfInBounds _ hcap, h.pos]
    rfl

omit hsmall in
/-- an access that overflows finds a long stash -/
theorem size_of_overflow (h : L.Recorded ids s l) {op : Op} (hop : op.Valid O)
    (hroom : R + O.height * O.Z + 1 ≤ O.stash.capacity) (hover : O.stash.capacity < O.demand L.storage s op) :
    R < s.stash.size := by
  obtain ⟨c, v, h⟩ := h
  have hpath := length_pathBlocks_le hL h.inv.toShape h.sees hop.block_lt
  have hnew := newcomers_le (L := L) (s := s) op
  rw [Oram.demand] at hover
  omega

end Access

/-! ## In the shadow of the accesses -/

section Shadows

variable {M : ℕ} [NeZero M] (hM : 2 ^ 64 ∣ M) (D : SamplingOram O) (hL : L.OnArray) (hsmall : O.Small)
  (hfault : ∀ e, ¬ L.storage.fault e) (hids : ∀ id ∈ ids, id < 2 ^ O.height * O.Z) {e : ℝ≥0∞}
  (he : e = 0 ∨ R + O.height * O.Z + 1 ≤ O.stash.capacity)

include hL hsmall hfault hids he

/-- what an access is worth in a world: it is logged, or throws on top of a crowd -/
theorem access_worth (hs : L.Recorded ids s l) {op : Op} (hop : op.Valid O) (hput : op.read = false → op.block ∈ ids)
    {φ : Except Exception Bytes → (ℕ → ℕ) → OramState β (PositionArray mapCapacity) → ℝ≥0∞} {Φ : Log ℕ → ℝ≥0∞}
    (herr : ∀ x k s', φ (.error x) k s' ≤ e) (hok : ∀ a k s' l', L.Recorded ids s' l' → φ (.ok a) k s' ≤ Φ l') (k : ℕ → ℕ) :
    φ ((O.access op.read op.block op.data []).exec w s).1 k ((O.access op.read op.block op.data []).exec w s).2.2 ≤
      e * truth (Swamped O ids R l) + Φ (l.access op.block (O.drawnLeaf w)) := by
  have hrecorded := hs
  obtain ⟨c, v, h⟩ := hs
  rcases access_outcome (w := w) hL h.inv h.unique h.sees h.size_le hop with
    ⟨x, w', s', -, hx⟩ | ⟨-, r, w', s', hexec⟩ | ⟨hover, w', s', hexec⟩
  · exact absurd hx (hfault x)
  · rw [hexec]
    exact (hok r k s' _ (recorded_access hL hsmall hrecorded hop hput hexec)).trans le_add_self
  · rw [hexec]
    apply (herr _ k s').trans
    rcases he with rfl | hroom
    · exact zero_le
    · have hswamped := swamped_of_size hL hids hrecorded (size_of_overflow hL hrecorded hop hroom hover)
      simp [hswamped]

include hM D

/-- **An access** in the shadow of a log. -/
theorem access_shadows {op : Op} (hop : op.Valid O) (hput : op.read = false → op.block ∈ ids) :
    Shadows worldTape M e (L.Recorded ids) (O.access op.read op.block op.data []) (L.Recorded ids)
      (rehearse (2 ^ (O.height - 1)) e (Swamped O ids R) [op.block]) where
  samples := D.access_samples op.read op.block op.data []
  le φ Φ k s l hs herr hok := by
    have hexponent : O.height - 1 ≤ 64 := (Nat.sub_le _ _).trans (L.height_le.trans (by norm_num))
    let value : Except Exception ℕ → (ℕ → ℕ) → OramState β (PositionArray mapCapacity) → ℝ≥0∞ :=
      carryOn (fun leaf _ _ => Φ (l.access op.block leaf)) fun _ _ _ => 0
    have hdrawn : mean M (fun t => Φ (l.access op.block (O.drawnLeaf (worldTape.make t k)))) =
        expect worldTape M (getRandomULong (2 ^ (O.height - 1)) : Run (OramState β (PositionArray mapCapacity)) ℕ) k s
          value := by
      simp only [Oram.drawnLeaf, L.shlOne_eq]
      rfl
    calc expect worldTape M (O.access op.read op.block op.data []) k s φ
        ≤ mean M fun t => e * truth (Swamped O ids R l) + Φ (l.access op.block (O.drawnLeaf (worldTape.make t k))) :=
          mean_mono fun t => access_worth hL hsmall hfault hids he hs hop hput herr hok _
      _ = e * truth (Swamped O ids R l) + mean M fun t => Φ (l.access op.block (O.drawnLeaf (worldTape.make t k))) :=
          mean_const_add _ _
      _ = rehearse (2 ^ (O.height - 1)) e (Swamped O ids R) [op.block] Φ l := by
          rw [hdrawn, getRandomULong_expect hM hexponent k s value]
          rfl

/-- accesses in turn -/
theorem accessList_shadows {requests : List Block} (hr : ∀ r ∈ requests, Op.Valid O ⟨r.2.length == 0, r.1, r.2⟩)
    (hput : ∀ r ∈ requests, (r.2.length == 0) = false → r.1 ∈ ids) :
    Shadows worldTape M e (L.Recorded ids) ((requests.zip (List.replicate requests.length [])).mapM fun r =>
        O.access (r.1.2.length == 0) r.1.1 r.1.2 r.2) (L.Recorded ids)
      (rehearse (2 ^ (O.height - 1)) e (Swamped O ids R) (requests.map Prod.fst)) := by
  induction requests with
  | nil => exact Shadows.pure _
  | cons r requests ih =>
    rw [List.length_cons, List.replicate_succ, List.zip_cons_cons, List.mapM_cons]
    have hfirst := access_shadows hM D hL hsmall hfault hids he (hr r List.mem_cons_self) (hput r List.mem_cons_self)
    have hrest := ih (fun r hm => hr r (List.mem_cons_of_mem _ hm)) fun r hm => hput r (List.mem_cons_of_mem _ hm)
    exact hfirst.bind fun _ => hrest.bind fun _ => Shadows.pure _

omit hM hsmall hids he in
/-- what a batch does before its accesses leaves the log alone -/
theorem prepare_shadows {requests : List Block} (hr : ∀ r ∈ requests, r.1 < 2 ^ O.height * O.Z) :
    Shadows worldTape M e (L.Recorded ids) (O.prepare requests) (L.Recorded ids) fun Φ => Φ := by
  apply Shadows.of_triple (D.prepare_samples requests)
  rintro l w s ⟨c, v, h⟩
  have hproceeds := prepare_proceeds hL hfault h.inv.toShape hr
  have hmap : Triple (fun t => t.map = s.map) (O.prepare requests) (fun _ t => t.map = s.map) (fun _ t => t.map = s.map) :=
    (map_kept hL s.map).steady.prepare requests
  refine ((hproceeds.and hmap).conseq (fun _ h => h) ?_ fun _ _ h => h.1) w s ⟨⟨h.sees, h.size_le⟩, rfl⟩
  rintro _ s' ⟨⟨⟨v', hp, hs'⟩, hle'⟩, hkept⟩
  exact ⟨c, v', inv_prepared h.inv hp, unique_prepared h.unique hp, hs', packed_prepared h.packed hp, h.held, h.reads_lt,
    hkept ▸ h.pos, hle'⟩

omit hM hsmall hids he in
/-- so does an upload -/
theorem syncCache_shadows : Shadows worldTape M e (L.Recorded ids) O.syncCache (L.Recorded ids) fun Φ => Φ := by
  apply Shadows.of_triple D.syncCache_samples
  rintro l w s ⟨c, v, h⟩
  have hproceeds := syncCache_proceeds hL hfault h.inv.toShape
  have hmap : Triple (fun t => t.map = s.map) O.syncCache (fun _ t => t.map = s.map) (fun _ t => t.map = s.map) :=
    syncCache_keeps (fun _ _ h => h) fun _ _ h => h
  refine ((hproceeds.and hmap).conseq (fun _ h => h) ?_ fun _ _ h => h.1) w s ⟨⟨h.sees, h.size_le⟩, rfl⟩
  rintro _ s' ⟨⟨⟨v', hp, hs'⟩, hle'⟩, hkept⟩
  exact ⟨c, v', inv_synced h.inv hp, unique_synced h.unique hp, hs', packed_synced h.packed hp, h.held, h.reads_lt,
    hkept ▸ h.pos, hle'⟩

/-- **A call** in the shadow of a log. -/
theorem exec_shadows {call : Call} (hcall : call.Valid O) (hshort : call.batch.length < 2 ^ 32)
    (hput : ∀ op ∈ call.ops, op.read = false → op.block ∈ ids) :
    Shadows worldTape M e (L.Recorded ids) (O.exec call) (L.Recorded ids)
      (rehearse (2 ^ (O.height - 1)) e (Swamped O ids R) call.ids) := by
  have hfinish : ∀ rs, Shadows worldTape M e (L.Recorded ids) (do
      O.syncCache
      return call.reply rs) (L.Recorded ids) fun Φ => Φ :=
    fun rs => (syncCache_shadows D hL hfault).bind fun _ => Shadows.pure _
  have haccesses : Shadows worldTape M e (L.Recorded ids) (O.accesses call) (L.Recorded ids)
      (rehearse (2 ^ (O.height - 1)) e (Swamped O ids R) call.ids) := by
    have hone : ∀ op : Op, call.ops = [op] → call.batch = [] →
        Shadows worldTape M e (L.Recorded ids) (O.accesses call) (L.Recorded ids)
          (rehearse (2 ^ (O.height - 1)) e (Swamped O ids R) call.ids) := by
      intro op hops hbatch
      have hmem : op ∈ call.ops := hops ▸ List.mem_singleton_self op
      have haccess := access_shadows hM D hL hsmall hfault hids he (hcall.1 op hmem) (hput op hmem)
      rw [accesses_single O hops hbatch, Call.ids, hops]
      exact haccess.bind fun r => Shadows.pure [r]
    cases call with
    | get block => exact hone ⟨true, block, []⟩ rfl rfl
    | put block data => exact hone ⟨false, block, data⟩ rfl rfl
    | multiple requests =>
      have hr : ∀ r ∈ requests, Op.Valid O ⟨r.2.length == 0, r.1, r.2⟩ := fun r hm => hcall.1 _ (List.mem_map_of_mem hm)
      have hput' : ∀ r ∈ requests, (r.2.length == 0) = false → r.1 ∈ ids := fun r hm => hput _ (List.mem_map_of_mem hm)
      have hmultiple : (Call.multiple requests).ids = requests.map Prod.fst := by
        rw [Call.ids, Call.ops, List.map_map]
        rfl
      rw [hmultiple]
      refine Shadows.ite (fun hlong => absurd hcall.2 (not_le.2 hlong)) fun _ => ?_
      rw [@serve_eq _ _ O requests hshort]
      exact (prepare_shadows D hL hfault fun r hm => (hr r hm).block_lt).bind fun _ =>
        accessList_shadows hM D hL hsmall hfault hids he hr hput'
  rw [exec_eq]
  exact haccesses.bind hfinish

/-- **A run** in the shadow of a log. -/
theorem run_shadows {calls : List Call} (hcalls : ∀ call ∈ calls, call.Valid O)
    (hshort : ∀ call ∈ calls, call.batch.length < 2 ^ 32) (hput : putIds calls ⊆ ids) :
    Shadows worldTape M e (L.Recorded ids) (O.run calls) (L.Recorded ids)
      (rehearse (2 ^ (O.height - 1)) e (Swamped O ids R) (calls.flatMap Call.ids)) := by
  induction calls with
  | nil => exact Shadows.pure _
  | cons call calls ih =>
    have hput' : ∀ op ∈ call.ops, op.read = false → op.block ∈ ids := fun op hop hread =>
      hput (mem_putIds.2 ⟨call, List.mem_cons_self, op, hop, hread, rfl⟩)
    have hrest : putIds calls ⊆ ids := by
      intro id hid
      obtain ⟨call', hm, op, hop, hread, rfl⟩ := mem_putIds.1 hid
      exact hput (mem_putIds.2 ⟨call', List.mem_cons_of_mem _ hm, op, hop, hread, rfl⟩)
    have hfirst := exec_shadows hM D hL hsmall hfault hids he (hcalls call List.mem_cons_self)
      (hshort call List.mem_cons_self) hput'
    have hothers := ih (fun call hm => hcalls call (List.mem_cons_of_mem _ hm))
      (fun call hm => hshort call (List.mem_cons_of_mem _ hm)) hrest
    have happend : rehearse (2 ^ (O.height - 1)) e (Swamped O ids R) (call.ids ++ calls.flatMap Call.ids) = fun Φ =>
        rehearse (2 ^ (O.height - 1)) e (Swamped O ids R) call.ids
          (rehearse (2 ^ (O.height - 1)) e (Swamped O ids R) (calls.flatMap Call.ids) Φ) := by
      funext Φ l
      exact rehearse_append _ _ _ _ _ Φ l
    rw [Oram.run, List.mapM_cons, List.flatMap_cons, happend]
    exact hfirst.bind fun reply => hothers.bind fun replies => Shadows.pure (reply :: replies)

omit hM [NeZero M] D hL hsmall hfault hids he in
/-- the constructor leaves nothing to log -/
theorem recorded_of_holdsNothing (h : L.HoldsOnce (fun _ => none) s) : L.Recorded ids s ⟨leafOf s.map, []⟩ := by
  have hsize := size_of_holdsNothing h
  obtain ⟨v, hv, hu, -, hs⟩ := h
  exact ⟨_, v, hv, hu, hs, fun _ _ _ _ _ htouched => htouched.elim, fun id hid => absurd rfl hid, by simp, rfl,
    hsize.trans_le (Nat.zero_le _)⟩

/-- **A session** is a rehearsal of its accesses from uniform leaves. -/
theorem session_shadowed (hfresh : L.Fresh s) {calls : List Call} (hcalls : ∀ call ∈ calls, call.Valid O)
    (hshort : ∀ call ∈ calls, call.batch.length < 2 ^ 32) (hput : putIds calls ⊆ ids)
    {φ : Except Exception (List Reply) → (ℕ → ℕ) → OramState β (PositionArray mapCapacity) → ℝ≥0∞} {Φ : Log ℕ → ℝ≥0∞}
    (herr : ∀ x k s', φ (.error x) k s' ≤ e) (hok : ∀ a k s' l', L.Recorded ids s' l' → φ (.ok a) k s' ≤ Φ l') (k : ℕ → ℕ) :
    expect worldTape M (O.session calls) k s φ ≤
      redrawAll (2 ^ (O.height - 1)) (List.range (2 ^ O.height * O.Z)) (fun pos =>
        rehearse (2 ^ (O.height - 1)) e (Swamped O ids R) (calls.flatMap Call.ids) Φ ⟨pos, []⟩) (leafOf s.map) := by
  let Ψ : Look → ℝ≥0∞ := fun seen => rehearse (2 ^ (O.height - 1)) e (Swamped O ids R) (calls.flatMap Call.ids) Φ ⟨seen.pos, []⟩
  have hconstruct : Triple L.Fresh O.construct (fun _ => L.HoldsOnce fun _ => none) (fun _ _ => False) :=
    (construct_faults L).conseq (fun _ h => h) (fun _ _ h => h) fun x _ hx => hx.elim (hL.err x) (hfault x)
  have hrun := run_shadows hM D hL hsmall hfault hids he hcalls hshort hput
  calc expect worldTape M (O.session calls) k s φ
      = expect worldTape M O.construct k s
          (carryOn (fun _ k' s' => expect worldTape M (O.run calls) k' s' φ) fun x k' s' => φ (.error x) k' s') :=
        expect_bind D.construct_samples
    _ ≤ expect worldTape M O.construct k s (worth look Ψ) :=
        expect_mono_of_triple hconstruct hfresh
          (fun _ k' s' hs' => hrun.le φ Φ k' s' _ (recorded_of_holdsNothing hs') herr hok) fun _ _ _ hx => hx.elim
    _ ≤ _ := (construct_follows hM hL D).le Ψ k s hfresh

omit hids in
/-- **What a session may cost**: a price e for an exception, and f for a long stash at its end. -/
theorem session_costs (hfresh : L.Fresh s) {calls : List Call} (hcalls : ∀ call ∈ calls, call.Valid O)
    (hshort : ∀ call ∈ calls, call.batch.length < 2 ^ 32) (hZ : 5 ≤ O.Z)
    (hload : (putIds calls).card ≤ 5 * 2 ^ (O.height - 1)) {f : ℝ≥0∞}
    {φ : Except Exception (List Reply) → (ℕ → ℕ) → OramState β (PositionArray mapCapacity) → ℝ≥0∞}
    (herr : ∀ x k s', φ (.error x) k s' ≤ e) (hok : ∀ a k s', φ (.ok a) k s' ≤ f * truth (R < s'.stash.size)) (k : ℕ → ℕ) :
    expect worldTape M (O.session calls) k s φ ≤
      (calls.flatMap Call.ids).length * (e * (3 * (3 / 5) ^ (R + 1))) + f * (3 * (3 / 5) ^ (R + 1)) := by
  have hblocks : ∀ call ∈ calls, ∀ id ∈ call.ids, id < 2 ^ O.height * O.Z := by
    intro call hcall id hid
    obtain ⟨op, hop, rfl⟩ := List.mem_map.1 hid
    exact ((hcalls call hcall).1 op hop).block_lt
  have hall : ∀ id ∈ calls.flatMap Call.ids, id ∈ List.range (2 ^ O.height * O.Z) := by
    intro id hid
    obtain ⟨call, hcall, hid⟩ := List.mem_flatMap.1 hid
    exact List.mem_range.2 (hblocks call hcall id hid)
  have hids : ∀ id ∈ putIds calls, id < 2 ^ O.height * O.Z := by
    intro id hid
    obtain ⟨call, hcall, op, hop, -, rfl⟩ := mem_putIds.1 hid
    exact hblocks call hcall _ (List.mem_map_of_mem hop)
  have htail : ∀ is, afterwards (2 ^ (O.height - 1)) (List.range (2 ^ O.height * O.Z)) is
      (fun l => truth (Swamped O (putIds calls) R l)) (leafOf s.map) ≤ 3 * (3 / 5) ^ (R + 1) := fun is =>
    crowded_chance_five L.height_pos hZ List.nodup_range (fun id hid => List.mem_range.2 (hids id hid)) hload R is _
  calc expect worldTape M (O.session calls) k s φ
      ≤ redrawAll (2 ^ (O.height - 1)) (List.range (2 ^ O.height * O.Z)) (fun pos =>
          rehearse (2 ^ (O.height - 1)) e (Swamped O (putIds calls) R) (calls.flatMap Call.ids)
            (fun l => f * truth (Swamped O (putIds calls) R l)) ⟨pos, []⟩) (leafOf s.map) := by
        apply session_shadowed hM D hL hsmall hfault hids he hfresh hcalls hshort (Finset.Subset.refl _) herr
        intro a k' s' l hs'
        have hlong : truth (R < s'.stash.size) ≤ truth (Swamped O (putIds calls) R l) :=
          truth_mono (swamped_of_size hL hids hs')
        exact (hok a k' s').trans (mul_le_mul_right hlong f)
    _ ≤ (calls.flatMap Call.ids).length * (e * (3 * (3 / 5) ^ (R + 1))) +
          afterwards (2 ^ (O.height - 1)) (List.range (2 ^ O.height * O.Z)) (calls.flatMap Call.ids)
            (fun l => f * truth (Swamped O (putIds calls) R l)) (leafOf s.map) := redrawAll_rehearse_le hall htail _
    _ ≤ (calls.flatMap Call.ids).length * (e * (3 * (3 / 5) ^ (R + 1))) + f * (3 * (3 / 5) ^ (R + 1)) := by
        rw [afterwards_mul]
        gcongr
        exact htail _

omit hids he in
/-- an exception at every access that overflows -/
theorem session_throws_le (hfresh : L.Fresh s) {calls : List Call} (hcalls : ∀ call ∈ calls, call.Valid O)
    (hshort : ∀ call ∈ calls, call.batch.length < 2 ^ 32) (hZ : 5 ≤ O.Z)
    (hload : (putIds calls).card ≤ 5 * 2 ^ (O.height - 1)) (hroom : R + O.height * O.Z + 1 ≤ O.stash.capacity) (k : ℕ → ℕ) :
    chance worldTape M (O.session calls) k s Failed ≤ (calls.flatMap Call.ids).length * (3 * (3 / 5) ^ (R + 1)) := by
  have hsamples : Draws (O.session calls) := D.construct_samples.bind fun _ => D.run_samples calls
  calc chance worldTape M (O.session calls) k s Failed
      = expect worldTape M (O.session calls) k s fun r k' s' => truth (Failed r k' s') := chance_eq_expect hsamples _
    _ ≤ (calls.flatMap Call.ids).length * (1 * (3 * (3 / 5) ^ (R + 1))) + 0 * (3 * (3 / 5) ^ (R + 1)) := by
        apply session_costs hM D hL hsmall hfault (Or.inr hroom) hfresh hcalls hshort hZ hload
        · intro x _ _
          rw [← truth_true]
          exact truth_mono fun _ => trivial
        · intro replies k' s'
          simp [Failed]
    _ = (calls.flatMap Call.ids).length * (3 * (3 / 5) ^ (R + 1)) := by rw [one_mul, zero_mul, add_zero]

end Shadows

end LawfulOram

/-! ## The stash of a session -/

section

variable {β : Type} {S : StorageAdapter β} {mapCapacity stashCapacity height batchSize : ℕ}

/-- sixty-four buckets of five blocks -/
def fiveStorage : AbsStorageAdapter :=
  ⟨List.replicate 32 0, 5, 0, 64, 32, zeroKey_length, two_blocks_32, whole_blocks_32, by decide⟩

/-- puts of as many blocks as five for each leaf make -/
def fivePuts : List Call := (List.range 160).map fun id => .put id [7]

theorem five_sizes : Sizes fiveStorage plainCrypto 320 6 :=
  ⟨by decide, by decide, by decide, by decide, by decide, plainCrypto_lawful⟩

/-- **The stash has a geometric tail.** With buckets of five blocks and more, and five blocks for each leaf at most, whatever
the calls are and however many, a session leaves more than R blocks in the stash with a probability that falls geometrically
in R. -/
theorem stash_tail (h : Sizes S.toAbsStorageAdapter S.crypto mapCapacity height) (hsmall : 2 ^ height * S.Z ≤ 2 ^ 31)
    (L : LawfulBackend S.backend S.capacity S.blockSize) (hfault : ∀ e, ¬ L.fault e) (B : SamplingBackend S.backend)
    {M : ℕ} [NeZero M] (hM : 2 ^ 64 ∣ M) {s₀ : OramState β (PositionArray mapCapacity)} (hfresh : Fresh s₀) (orders : ℕ → ℕ)
    (hZ : 5 ≤ S.Z) {calls : List Call}
    (hcalls : ∀ call ∈ calls, call.Valid (arrayOram S mapCapacity stashCapacity height batchSize))
    (hload : (putIds calls).card ≤ 5 * 2 ^ (height - 1)) (R : ℕ) :
    chance worldTape M ((arrayOram S mapCapacity stashCapacity height batchSize).session calls) orders s₀
        (fun r _ s => (∃ replies, r = .ok replies) ∧ R < s.stash.size) ≤
      3 * (3 / 5) ^ (R + 1) := by
  set O := arrayOram S mapCapacity stashCapacity height batchSize
  have D : SamplingOram O := arrayOram_samples B mapCapacity stashCapacity height batchSize
  by_cases hshort : ∀ call ∈ calls, call.batch.length < 2 ^ 32
  swap
  · -- a session with an endless batch never returns
    have hnever : chance worldTape M (O.session calls) orders s₀
        (fun r _ s => (∃ replies, r = .ok replies) ∧ R < s.stash.size) = 0 := by
      apply chance_of_forall_not
      rintro t ⟨⟨replies, hreplies⟩, -⟩
      exact hshort fun call hm => not_le.1 ((LawfulOram.session_ends calls).ok trivial (Prog.exec_eq hreplies) call hm)
    exact hnever.trans_le zero_le
  calc chance worldTape M (O.session calls) orders s₀ (fun r _ s => (∃ replies, r = .ok replies) ∧ R < s.stash.size)
      = expect worldTape M (O.session calls) orders s₀ fun r _ s => truth ((∃ replies, r = .ok replies) ∧ R < s.stash.size) :=
        chance_eq_expect (D.construct_samples.bind fun _ => D.run_samples calls) _
    _ ≤ (calls.flatMap Call.ids).length * (0 * (3 * (3 / 5) ^ (R + 1))) + 1 * (3 * (3 / 5) ^ (R + 1)) := by
        apply LawfulOram.session_costs hM D (arrayOram_onArray h L stashCapacity batchSize) hsmall hfault (Or.inl rfl)
          (arrayOram_fresh h L stashCapacity batchSize hfresh) hcalls hshort hZ hload
        · intro x _ _
          simp
        · intro _ _ _
          rw [one_mul]
          exact truth_mono fun hlong => hlong.2
    _ = 3 * (3 / 5) ^ (R + 1) := by rw [zero_mul, mul_zero, zero_add, one_mul]

/-- a stash for ten blocks more than a path has, of 160 blocks that are put -/
theorem stash_tail_small :
    chance worldTape (2 ^ 64) ((inMemoryOram fiveStorage plainCrypto 320 41 6 1).session fivePuts) (fun _ => 0)
        (zeroState fiveStorage 320) (fun r _ s => (∃ replies, r = .ok replies) ∧ 10 < s.stash.size) ≤
      3 * (3 / 5) ^ (10 + 1) :=
  stash_tail five_sizes (by decide) (inMemoryBackend_lawful 64 256) (fun _ hfault => hfault) (inMemoryBackend_samples 64 256)
    (dvd_refl _) (zeroState_fresh fiveStorage 320) (fun _ => 0) (by decide) (by decide +kernel) (by decide +kernel) 10

/-- **A stash that need not take all blocks** overflows seldom: with room for a path and R blocks more, and batches of fewer
than 2^32 requests, the probability that a session throws is the number of its accesses at most, times one that falls
geometrically in R. -/
theorem session_seldom_throws (h : Sizes S.toAbsStorageAdapter S.crypto mapCapacity height)
    (hsmall : 2 ^ height * S.Z ≤ 2 ^ 31) (L : LawfulBackend S.backend S.capacity S.blockSize) (hfault : ∀ e, ¬ L.fault e)
    (B : SamplingBackend S.backend) {M : ℕ} [NeZero M] (hM : 2 ^ 64 ∣ M) {s₀ : OramState β (PositionArray mapCapacity)}
    (hfresh : Fresh s₀) (orders : ℕ → ℕ) (hZ : 5 ≤ S.Z) {calls : List Call}
    (hcalls : ∀ call ∈ calls, call.Valid (arrayOram S mapCapacity stashCapacity height batchSize))
    (hshort : ∀ call ∈ calls, call.batch.length < 2 ^ 32) (hload : (putIds calls).card ≤ 5 * 2 ^ (height - 1)) {R : ℕ}
    (hroom : R + height * S.Z + 1 ≤ stashCapacity) :
    chance worldTape M ((arrayOram S mapCapacity stashCapacity height batchSize).session calls) orders s₀ Failed ≤
      (calls.flatMap Call.ids).length * (3 * (3 / 5) ^ (R + 1)) :=
  LawfulOram.session_throws_le hM (arrayOram_samples B mapCapacity stashCapacity height batchSize)
    (arrayOram_onArray h L stashCapacity batchSize) hsmall hfault (arrayOram_fresh h L stashCapacity batchSize hfresh) hcalls
    hshort hZ hload hroom orders

theorem session_seldom_throws_small :
    chance worldTape (2 ^ 64) ((inMemoryOram fiveStorage plainCrypto 320 41 6 1).session fivePuts) (fun _ => 0)
        (zeroState fiveStorage 320) Failed ≤
      (fivePuts.flatMap Call.ids).length * (3 * (3 / 5) ^ (10 + 1)) :=
  session_seldom_throws five_sizes (by decide) (inMemoryBackend_lawful 64 256) (fun _ hfault => hfault)
    (inMemoryBackend_samples 64 256) (dvd_refl _) (zeroState_fresh fiveStorage 320) (fun _ => 0) (by decide)
    (by decide +kernel) (by decide +kernel) (by decide +kernel) (by decide)

end

/-- **The stash of the constructor**, which has room for three paths: the probability that a session throws is the number of
its accesses at most, times one that falls geometrically in the room that two paths take. -/
theorem default_seldom_throws {A : AbsStorageAdapter} {crypto : Crypto} {logCapacity : ℕ} (hpos : 1 ≤ logCapacity)
    (hle : logCapacity ≤ 30) (hsize : 2 ^ logCapacity * A.Z ≤ 2 ^ 31) (hcapacity : A.capacity = shlOne logCapacity)
    (hc : crypto.Lawful) {M : ℕ} [NeZero M] (hM : 2 ^ 64 ∣ M)
    {s₀ : OramState (BlockArray A.capacity A.blockSize) (PositionArray (defaultMapCapacity logCapacity A.Z))}
    (hfresh : Fresh s₀) (orders : ℕ → ℕ) (hZ : 5 ≤ A.Z) {calls : List Call}
    (hcalls : ∀ call ∈ calls, call.Valid (defaultOram A crypto logCapacity))
    (hload : (putIds calls).card ≤ 5 * 2 ^ (logCapacity - 1)) :
    chance worldTape M ((defaultOram A crypto logCapacity).session calls) orders s₀ Failed ≤
      (calls.flatMap Call.ids).length * (3 * (3 / 5) ^ (2 * (logCapacity * A.Z))) := by
  have h := default_sizes hpos hle hsize hcapacity hc
  have hZ' : A.Z ≤ 2 ^ 31 := (Nat.le_mul_of_pos_left _ (Nat.two_pow_pos _)).trans hsize
  have hpath : 1 ≤ logCapacity * A.Z := Nat.mul_pos hpos (by omega)
  have hbound : logCapacity * A.Z ≤ 30 * 2 ^ 31 := Nat.mul_le_mul hle hZ'
  have hstash : defaultStashCapacity logCapacity A.Z = 3 * (logCapacity * A.Z) := by
    rw [defaultStashCapacity, Nat.mul_assoc, Nat.mod_eq_of_lt (by omega)]
  have hroom : 2 * (logCapacity * A.Z) - 1 + logCapacity * A.Z + 1 ≤ defaultStashCapacity logCapacity A.Z := by omega
  have hL : (inMemoryOram_lawful h (defaultStashCapacity logCapacity A.Z) 1).OnArray := arrayOram_onArray h _ _ _
  have D : SamplingOram (defaultOram A crypto logCapacity) :=
    arrayOram_samples (inMemoryBackend_samples A.capacity A.blockSize) _ _ _ _
  have hshort : ∀ call ∈ calls, call.batch.length < 2 ^ 32 := by
    intro call hm
    have hbatch : call.batch.length ≤ 1 := (hcalls call hm).2
    omega
  have hthrows := LawfulOram.session_throws_le hM D hL hsize (fun _ hfault => hfault) (inMemoryOram_fresh h _ _ hfresh) hcalls
    hshort hZ hload hroom orders
  rwa [Nat.sub_add_cancel (by omega)] at hthrows

/-- the constructor with logCapacity 6, for buckets of five: its stash has room for 90 of the 160 blocks -/
theorem default_seldom_throws_small :
    chance worldTape (2 ^ 64) ((defaultOram fiveStorage plainCrypto 6).session fivePuts) (fun _ => 0)
        (zeroState fiveStorage (defaultMapCapacity 6 5)) Failed ≤
      (fivePuts.flatMap Call.ids).length * (3 * (3 / 5) ^ (2 * (6 * 5))) :=
  default_seldom_throws (A := fiveStorage) (by decide) (by decide) (by decide) rfl plainCrypto_lawful (dvd_refl _)
    (zeroState_fresh fiveStorage _) (fun _ => 0) (by decide) (by decide +kernel) (by decide +kernel)

end PathOram
