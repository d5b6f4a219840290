/-
Blocks are unique as long as nothing throws.

`Unique` is stated in `Invariant`; an access that throws may leave a block both in the stash and in the tree, so only
the steps that return keep it: `unique_accessed` and, for calls, `unique_callStep`. Reading a path puts its blocks into
the stash without taking them out of the tree, so the proof goes over the whole access: the buckets of the path are
replaced, and what was read off them is in the stash once.
-/
import PathOram.Invariant

namespace PathOram

open Lib

namespace LawfulOram

variable {β μ : Type} {O : Oram β μ} {L : LawfulOram O} {v v' : View} {c : Contents}

/-- two parts of a flattened list without repetitions that share an element are the same part -/
theorem eq_of_mem_flatMap {α γ κ : Type} {f : α → List γ} {key : γ → κ} {l : List α}
    (h : ((l.flatMap f).map key).Nodup) {a b : α} (ha : a ∈ l) (hb : b ∈ l) {x y : γ} (hx : x ∈ f a) (hy : y ∈ f b)
    (he : key x = key y) : a = b := by
  induction l with
  | nil => simp at ha
  | cons z l ih =>
    rw [List.flatMap_cons, List.map_append, List.nodup_append'] at h
    have hcross : ∀ {b y}, b ∈ l → y ∈ f b → ∀ x ∈ f z, key x ≠ key y := fun hb hy x hx he =>
      h.2.2 (List.mem_map_of_mem hx) (he ▸ List.mem_map_of_mem (List.mem_flatMap.2 ⟨_, hb, hy⟩))
    rcases List.mem_cons.1 ha with rfl | ha' <;> rcases List.mem_cons.1 hb with rfl | hb'
    · rfl
    · exact absurd he (hcross hb' hy x hx)
    · exact absurd he.symm (hcross ha' hx y hy)
    · exact ih h.2.1 ha' hb'

section Evicted

variable {leaf : ℕ} {cs : List Block}

theorem Evicted.evicted_nodup (h : Evicted O v leaf cs v') :
    ((evicted (O.fits v.pos leaf) O.Z O.height cs).map Prod.fst).Nodup := by
  have hk := h.keys_nodup
  rw [List.map_append, List.nodup_append'] at hk
  exact hk.1

/-- the part of the selection that a bucket of the path holds -/
theorem Evicted.exists_picks (h : Evicted O v leaf cs v') {ℓ : ℕ} (hℓ : ℓ ∈ path O.height leaf) :
    ∃ y ∈ (evict (O.fits v.pos leaf) O.Z O.height cs).1, ℓ = node O.height y.1 leaf ∧
      (v'.tree ℓ).filter (fun x => x.1 ≠ ulongMax) = y.2.reverse.filter (fun x => x.1 ≠ ulongMax) := by
  obtain ⟨level, hlevel, rfl⟩ := mem_path.1 hℓ
  have hmem : level ∈ (evict (O.fits v.pos leaf) O.Z O.height cs).1.map Prod.fst := by
    rw [evict_levels, List.mem_reverse]
    exact List.mem_range.2 hlevel
  obtain ⟨y, hy, rfl⟩ := List.mem_map.1 hmem
  exact ⟨y, hy, rfl, (h.on_path y hy).filter⟩

end Evicted

/-- **An access keeps blocks unique.** -/
theorem unique_accessed (L : LawfulOram O) (hsmall : O.Small) (hv : Inv O c v) (hu : Unique v) {op : Op}
    (hop : op.Valid O) {r : Bytes} (ha : Accessed O v op [] r v') : Unique v' := by
  obtain ⟨leaf, mid, cs, hleaf, hread, -, hev⟩ := ha
  have hf := fetched_of_pathRead L hv hread
  have hpos := hv.pos_lt _ hop.block_lt
  have hmid := shape_updated (shape_pathRead L (shape_remapped hv.toShape hleaf) hpos hread) hop.block_lt hop.data_le
  set w := updated op mid with hw
  have hid : ∀ {k d}, w.stash k = some d → k ≠ ulongMax := fun hk => ne_ulongMax L (hmid.stash_id _ _ hk)
  -- what is in the stash after the path was read is in no bucket off the path
  have hoff : ∀ {k d ℓ x}, w.stash k = some d → ℓ ∉ path O.height (v.pos op.block) → x ∈ v.tree ℓ → x.1 ≠ k := by
    rintro k d ℓ x hk hp hx rfl
    have hb : x.1 ≠ op.block := fun he => hp (he ▸ hv.tree_path ℓ x hx (hid hk))
    rcases hf.origin _ d hk with he | hs | ⟨ℓ', hp', hy⟩
    · exact hb he
    · exact hu.stash _ d hs ℓ x hx rfl
    · exact hp (hu.tree ℓ ℓ' x hx _ hy rfl (hid hk) ▸ hp')
  have hnew : ∀ {ℓ x}, ℓ ∈ path O.height (v.pos op.block) → x ∈ v'.tree ℓ → x.1 ≠ ulongMax →
      w.stash x.1 = some x.2 ∧ x ∈ evicted (O.fits w.pos (v.pos op.block)) O.Z O.height cs := fun hp hx hne =>
    (hev.of_mem_path hp hx).elim (fun hd => absurd hd.1 hne) fun hs => ⟨hs.1, hs.2.1⟩
  have hold : ∀ {ℓ}, ℓ ∉ path O.height (v.pos op.block) → v'.tree ℓ = v.tree ℓ := fun hp => by
    rw [hev.off_path _ hp, hf.tree]
  refine ⟨fun k d hk ℓ x hx => ?_, fun ℓ => ?_, fun ℓ ℓ' x hx y hy he hne => ?_⟩
  · have hk' := hev.stash_some hk
    rintro rfl
    by_cases hp : ℓ ∈ path O.height (v.pos op.block)
    · have hn := hev.stash_none hsmall hmid (hnew hp hx (hid hk')).2
      rw [hn] at hk
      cases hk
    · exact hoff hk' hp (hold hp ▸ hx) rfl
  · by_cases hp : ℓ ∈ path O.height (v.pos op.block)
    · obtain ⟨y, hy, -, hfilter⟩ := hev.exists_picks hp
      rw [hfilter]
      have hsub : (y.2.map Prod.fst).Nodup := by
        refine hev.evicted_nodup.sublist ?_
        rw [evicted, List.map_flatMap]
        exact List.sublist_flatten_of_mem (List.mem_map_of_mem hy)
      refine (List.Nodup.sublist ((List.filter_sublist).map Prod.fst) ?_)
      rw [List.map_reverse, List.nodup_reverse]
      exact hsub
    · rw [hold hp]
      exact hu.bucket ℓ
  · by_cases hp : ℓ ∈ path O.height (v.pos op.block) <;> by_cases hp' : ℓ' ∈ path O.height (v.pos op.block)
    · obtain ⟨a, hma, rfl, hfa⟩ := hev.exists_picks hp
      obtain ⟨b, hmb, rfl, hfb⟩ := hev.exists_picks hp'
      have hxa : x ∈ a.2.reverse.filter (fun x => x.1 ≠ ulongMax) := hfa ▸ List.mem_filter.2 ⟨hx, by simpa using hne⟩
      have hyb : y ∈ b.2.reverse.filter (fun x => x.1 ≠ ulongMax) :=
        hfb ▸ List.mem_filter.2 ⟨hy, by simpa [← he] using hne⟩
      have hab := eq_of_mem_flatMap hev.evicted_nodup hma hmb (List.mem_reverse.1 (List.mem_filter.1 hxa).1)
        (List.mem_reverse.1 (List.mem_filter.1 hyb).1) he
      rw [hab]
    · exact absurd he.symm (hoff (hnew hp hx hne).1 hp' (hold hp' ▸ hy))
    · exact absurd he (hoff (hnew hp' hy (he ▸ hne)).1 hp (hold hp ▸ hx))
    · rw [hold hp] at hx
      rw [hold hp'] at hy
      exact hu.tree ℓ ℓ' x hx y hy he hne

/-! ## Calls -/

theorem map_fst_padded (O : Oram β μ) (v : View) (ℓ : ℕ) : (padded O v ℓ).map Prod.fst = (v.tree ℓ).map Prod.fst := by
  unfold padded
  split_ifs
  · simp [StorageAdapter.stored]
  · rfl

theorem unique_padded (hu : Unique v) (cached : ℕ → Bool) (calls : List StorageCall) :
    Unique { v with tree := padded O v, cached := cached, calls := calls } := by
  have hfst : ∀ {ℓ x}, x ∈ padded O v ℓ → ∃ y ∈ v.tree ℓ, x.1 = y.1 := fun hx =>
    (mem_padded hx).imp fun y h => ⟨h.1, h.2.1⟩
  refine ⟨fun k d hk ℓ x hx => ?_, fun ℓ => ?_, fun ℓ ℓ' x hx y hy he hne => ?_⟩
  · obtain ⟨y, hy, h1⟩ := hfst hx
    rw [h1]
    exact hu.stash k d hk ℓ y hy
  · have hfilter : ∀ b : Bucket, (b.filter fun x => x.1 ≠ ulongMax).map Prod.fst =
        (b.map Prod.fst).filter fun k => k ≠ ulongMax := fun b => by
      rw [List.filter_map]
      rfl
    have h := hu.bucket ℓ
    rw [hfilter] at h ⊢
    rwa [map_fst_padded]
  · obtain ⟨x', hx', h1⟩ := hfst hx
    obtain ⟨y', hy', h2⟩ := hfst hy
    exact hu.tree ℓ ℓ' x' hx' y' hy' (h1 ▸ h2 ▸ he) (h1 ▸ hne)

theorem unique_prepared (hu : Unique v) (hp : Prepared O v v') : Unique v' := by
  obtain ⟨cached, mapCalls, calls, -, rfl⟩ := hp
  exact ⟨hu.stash, hu.bucket, hu.tree⟩

theorem unique_synced (hu : Unique v) (hs : Synced O v v') : Unique v' := by
  obtain ⟨requests, call, -, -, -, rfl⟩ := hs
  exact unique_padded hu _ _

theorem unique_accessRun (L : LawfulOram O) (hsmall : O.Small) {ops : List Op} {rs : List Bytes}
    (h : AccessRun O v ops rs v') (hv : Inv O c v) (hu : Unique v) (hops : ∀ op ∈ ops, op.Valid O) : Unique v' := by
  induction h generalizing c with
  | nil => exact hu
  | cons ha _ ih =>
    have hop := hops _ List.mem_cons_self
    exact ih (inv_accessed L hsmall hv hop ha).1 (unique_accessed L hsmall hv hu hop ha) fun op hm =>
      hops op (List.mem_cons_of_mem _ hm)

/-- **The accesses of a call keep blocks unique.** -/
theorem unique_served (L : LawfulOram O) (hsmall : O.Small) (hv : Inv O c v) (hu : Unique v) {ops : List Op}
    (hops : ∀ op ∈ ops, op.Valid O) {rs : List Bytes} (h : Served O v ops rs v') : Unique v' := by
  obtain ⟨v₁, hp, hr⟩ := h
  exact unique_accessRun L hsmall hr (inv_prepared hv hp) (unique_prepared hu hp) hops

theorem unique_callStep (L : LawfulOram O) (hsmall : O.Small) (hv : Inv O c v) (hu : Unique v) {ops : List Op}
    (hops : ∀ op ∈ ops, op.Valid O) {rs : List Bytes} (h : CallStep O v ops rs v') : Unique v' := by
  obtain ⟨v₁, v₂, hp, hr, hs⟩ := h
  exact unique_synced (unique_served L hsmall hv hu hops ⟨v₁, hp, hr⟩) hs

end LawfulOram

end PathOram
