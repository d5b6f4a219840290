/-
How the blocks of an ORAM are packed.

The eviction is greedy: a block that stays above a level of its path finds the bucket of that level full. So every block lies
as low as the paths that were read since it was accessed last could bring it, but for full buckets.

- `Touched`: the paths that were read since the last access of a block, as far as they meet its own.
- `packed_accessed`: **between a block and the lowest level at which its path was touched all buckets are full**, and every
  access keeps it so.
- `exists_crown`: a stash that holds blocks has a crown of full buckets below it, of which no block has been moved out: all
  these blocks survive in the sense of `Lib.Survivors`.
-/
import PathOram.Correctness
import PathOram.Lib.Crowns
import PathOram.Lib.Survivors

namespace PathOram

open Lib

/-- since its last access, with which it begins, a path was read that meets the path of a block at a level. The accesses are
listed from the last one back: the block, and the leaf whose path was read. -/
def Touched (height : ℕ) : List (ℕ × ℕ) → ℕ → ℕ → ℕ → Prop
  | [], _, _, _ => False
  | access :: reads, id, leaf, level =>
    node height level access.2 = node height level leaf ∨ (access.1 ≠ id ∧ Touched height reads id leaf level)

namespace LawfulOram

variable {β μ : Type} {O : Oram β μ} {L : LawfulOram O} {v v' : View} {c : Contents} {reads : List (ℕ × ℕ)}

/-- a bucket without dummies -/
def Full (v : View) (ℓ : ℕ) : Prop := ∀ x ∈ v.tree ℓ, x.1 ≠ ulongMax

/-- the block is in the stash or on its path above a level -/
def Above (O : Oram β μ) (v : View) (id level : ℕ) : Prop :=
  (∃ d, v.stash id = some d) ∨ ∃ k < level, ∃ x ∈ v.tree (node O.height k (v.pos id)), x.1 = id

/-- where its path was touched below a block, the bucket is full -/
def Packed (O : Oram β μ) (reads : List (ℕ × ℕ)) (v : View) : Prop :=
  ∀ id ≠ ulongMax, ∀ level < O.height, Above O v id level → Touched O.height reads id (v.pos id) level →
    Full v (node O.height level (v.pos id))

/-! ## Evictions -/

section Evicted

variable {leaf : ℕ} {cs : List Block}

/-- what an eviction selects for a level -/
theorem Evicted.exists_level (h : Evicted O v leaf cs v') {level : ℕ} (hl : level < O.height) :
    ∃ y ∈ (evict (O.fits v.pos leaf) O.Z O.height cs).1, y.1 = level ∧ O.IsBucket y.2 (v'.tree (node O.height level leaf)) := by
  have hmem : level ∈ (evict (O.fits v.pos leaf) O.Z O.height cs).1.map Prod.fst := by
    rw [evict_levels, List.mem_reverse]
    exact List.mem_range.2 hl
  obtain ⟨y, hy, rfl⟩ := List.mem_map.1 hmem
  exact ⟨y, hy, rfl, h.on_path y hy⟩

/-- what is left in the stash was not selected -/
theorem Evicted.mem_left (hsmall : O.Small) (hv : Shape O v) (h : Evicted O v leaf cs v') {id : ℕ} {d : Bytes}
    (hd : v'.stash id = some d) : (id, d) ∈ (evict (O.fits v.pos leaf) O.Z O.height cs).2 := by
  have hcs : (id, d) ∈ cs := (h.lists.2 id d).2 (h.stash_some hd)
  have hmem := (evict_perm (O.fits v.pos leaf) O.Z O.height cs).symm.subset hcs
  rcases List.mem_append.1 hmem with hselected | hleft
  · rw [h.stash_none hsmall hv hselected] at hd
    cases hd
  · exact hleft

/-- **A bucket that a block was passed over for is full.** -/
theorem Evicted.full_of_passed (L : LawfulOram O) (hv : Shape O v) (hf : leaf < 2 ^ (O.height - 1))
    (h : Evicted O v leaf cs v') {x : Block} (hx : x ∈ cs) {level : ℕ} (hl : level < O.height)
    (hmeet : node O.height level leaf = node O.height level (v.pos x.1))
    (hpassed : x ∈ (evict (O.fits v.pos leaf) O.Z O.height cs).2 ∨
      ∃ y ∈ (evict (O.fits v.pos leaf) O.Z O.height cs).1, y.1 < level ∧ x ∈ y.2) :
    Full v' (node O.height level leaf) := by
  have hstash : ∀ {b : Block}, b ∈ cs → b.1 < 2 ^ O.height * O.Z := fun {b} hb =>
    hv.stash_id _ _ ((h.lists.2 b.1 b.2).1 hb)
  have hfits : O.fits v.pos leaf level x = true := (L.canInclude_iff hl (hv.pos_lt _ (hstash hx)) hf).2 hmeet.symm
  obtain ⟨y, hy, hlevel, dummies, hbucket, hlen, -⟩ := h.exists_level hl
  have hroom := evict_full hl hfits hpassed y hy hlevel
  have hnil : dummies = [] := List.eq_nil_of_length_eq_zero (by omega)
  rw [hnil, List.append_nil] at hbucket
  intro b hb
  rw [hbucket, List.mem_reverse] at hb
  have hselected : b ∈ evicted (O.fits v.pos leaf) O.Z O.height cs := List.mem_flatMap.2 ⟨y, hy, hb⟩
  exact ne_ulongMax L (hstash ((evict_perm _ _ _ _).subset (List.mem_append_left _ hselected)))

/-- a real block on the path was selected for its level -/
theorem Evicted.mem_selected (h : Evicted O v leaf cs v') {level : ℕ} (hl : level < O.height) {x : Block}
    (hx : x ∈ v'.tree (node O.height level leaf)) (hreal : x.1 ≠ ulongMax) :
    ∃ y ∈ (evict (O.fits v.pos leaf) O.Z O.height cs).1, y.1 = level ∧ x ∈ y.2 := by
  obtain ⟨y, hy, hlevel, dummies, hbucket, -, hdummies⟩ := h.exists_level hl
  rw [hbucket, List.mem_append, List.mem_reverse] at hx
  refine ⟨y, hy, hlevel, hx.resolve_right fun hd => hreal (hdummies x hd).1⟩

end Evicted

/-! ## Accesses -/

/-- what the stash holds in the middle of an access was above the levels at which the paths part -/
theorem above_of_fetched (hv : Inv O c v) {op : Op} {leaf : ℕ} {w : View} (hop : op.block < 2 ^ O.height * O.Z)
    (hf : Fetched O c v op leaf w) {id : ℕ} {d : Bytes} (hd : w.stash id = some d) (hne : id ≠ op.block)
    (hid : id < 2 ^ O.height * O.Z) {level : ℕ} (hreal : id ≠ ulongMax)
    (hpart : node O.height level (v.pos op.block) ≠ node O.height level (v.pos id)) : Above O v id level := by
  rcases hf.origin id d hd with he | hs | ⟨ℓ, hℓ, hx⟩
  · exact absurd he hne
  · exact Or.inl ⟨d, hs⟩
  · obtain ⟨k, hk, rfl⟩ := mem_path.1 hℓ
    have hown := hv.tree_path _ _ hx hreal
    have hmeet := node_of_mem_path hk (hv.pos_lt _ hop) (hv.pos_lt _ hid) hown
    refine Or.inr ⟨k, ?_, (id, d), by rwa [hmeet], rfl⟩
    by_contra hle
    exact hpart (node_eq_of_le (not_lt.1 hle) hk hmeet.symm)

/-- **An access keeps the blocks packed.** -/
theorem packed_accessed (L : LawfulOram O) (hsmall : O.Small) (hv : Inv O c v) (hp : Packed O reads v) {op : Op}
    (hop : op.Valid O) {r : Bytes} (ha : Accessed O v op [] r v') :
    Packed O ((op.block, v.pos op.block) :: reads) v' := by
  obtain ⟨leaf, mid, cs, hleaf, hread, -, hev⟩ := ha
  have hf := fetched_of_pathRead L hv hread
  have hpos := hv.pos_lt _ hop.block_lt
  have hmid := shape_updated (shape_pathRead L (shape_remapped hv.toShape hleaf) hpos hread) hop.block_lt hop.data_le
  set w := updated op mid with hw
  set y := v.pos op.block with hy
  intro id hreal level hl habove htouched
  rw [hev.pos] at htouched ⊢
  -- the positions of other blocks are what they were
  have hkept : id ≠ op.block → w.pos id = v.pos id := fun hne => by rw [hf.pos, Function.update_of_ne hne]
  -- off the path that was read a full bucket stays full
  have hstays : node O.height level y ≠ node O.height level (w.pos id) → w.pos id < 2 ^ (O.height - 1) →
      Full v (node O.height level (w.pos id)) → Full v' (node O.height level (w.pos id)) := by
    intro hpart hlt hfull
    have hoff : node O.height level (w.pos id) ∉ path O.height y := fun hm => hpart (node_of_mem_path hl hlt hpos hm)
    rw [Full, hev.off_path _ hoff, hf.tree]
    exact hfull
  -- a block of the stash that was left, or selected for a level above
  have hpassed : ∀ d, w.stash id = some d → (id, d) ∈ cs →
      ((id, d) ∈ (evict (O.fits w.pos y) O.Z O.height cs).2 ∨
        ∃ z ∈ (evict (O.fits w.pos y) O.Z O.height cs).1, z.1 < level ∧ (id, d) ∈ z.2) →
      Full v' (node O.height level (w.pos id)) := by
    intro d hd hcs hover
    have hid := hmid.stash_id _ _ hd
    by_cases hmeet : node O.height level y = node O.height level (w.pos id)
    · rw [← hmeet]
      exact hev.full_of_passed L hmid hpos hcs hl hmeet hover
    · obtain ⟨hne, hbefore⟩ := htouched.resolve_left hmeet
      have hsame := hkept (Ne.symm hne)
      apply hstays hmeet (hmid.pos_lt _ hid)
      rw [hsame] at hbefore hmeet ⊢
      exact hp id hreal level hl (above_of_fetched hv hop.block_lt hf hd (Ne.symm hne) hid hreal hmeet) hbefore
  rcases habove with ⟨d, hd⟩ | ⟨k, hk, x, hx, rfl⟩
  · have hcs := hev.stash_some hd
    exact hpassed d hcs ((hev.lists.2 id d).2 hcs) (Or.inl (hev.mem_left hsmall hmid hd))
  · rw [hev.pos] at hx
    by_cases hon : node O.height k (w.pos x.1) = node O.height k y
    · rw [hon] at hx
      obtain ⟨z, hz, hzk, hxz⟩ := hev.mem_selected (hk.trans hl) hx hreal
      have hcs : x ∈ cs := (evict_perm _ _ _ _).subset (List.mem_append_left _ (List.mem_flatMap.2 ⟨z, hz, hxz⟩))
      exact hpassed x.2 ((hev.lists.2 x.1 x.2).1 hcs) hcs (Or.inr ⟨z, hz, hzk ▸ hk, hxz⟩)
    · have hpart : node O.height level y ≠ node O.height level (w.pos x.1) := fun he =>
        hon (node_eq_of_le hk.le hl he).symm
      obtain ⟨hne, hbefore⟩ := htouched.resolve_left hpart
      have hsame := hkept (Ne.symm hne)
      rw [hsame] at hon hx hbefore hpart hstays ⊢
      have hid : v.pos x.1 < 2 ^ (O.height - 1) := by
        have htree : ∀ ℓ, x ∈ v'.tree ℓ → x.1 < 2 ^ O.height * O.Z := fun ℓ hm =>
          ((shape_evicted L hmid hpos hev).tree_id ℓ x hm).resolve_left hreal
        exact hv.pos_lt _ (htree _ hx)
      have hoff : node O.height k (v.pos x.1) ∉ path O.height y := fun hm =>
        hon (node_of_mem_path (hk.trans hl) hid hpos hm).symm
      rw [hev.off_path _ hoff, hf.tree] at hx
      exact hstays hpart hid (hp x.1 hreal level hl (Or.inr ⟨k, hk, x, hx, rfl⟩) hbefore)

/-! ## What comes between accesses -/

/-- positions, stash and the IDs in the buckets are all that counts -/
theorem Packed.congr (hp : Packed O reads v) (hpos : v'.pos = v.pos) (hstash : v'.stash = v.stash)
    (htree : ∀ ℓ, (v'.tree ℓ).map Prod.fst = (v.tree ℓ).map Prod.fst) : Packed O reads v' := by
  have hmem : ∀ ℓ id, (∃ x ∈ v'.tree ℓ, x.1 = id) ↔ ∃ x ∈ v.tree ℓ, x.1 = id := by
    intro ℓ id
    rw [← List.mem_map, htree, List.mem_map]
  intro id hreal level hl habove htouched
  rw [hpos] at htouched ⊢
  have habove' : Above O v id level := by
    simp only [Above, hpos, hstash, hmem] at habove
    exact habove
  have hfull := hp id hreal level hl habove' htouched
  intro x hx he
  obtain ⟨b, hb, hid⟩ := (hmem _ _).1 ⟨x, hx, rfl⟩
  exact hfull b hb (hid.trans he)

theorem packed_prepared (hp : Packed O reads v) (h : Prepared O v v') : Packed O reads v' := by
  obtain ⟨cached, mapCalls, calls, -, rfl⟩ := h
  exact hp

theorem packed_synced (hp : Packed O reads v) (h : Synced O v v') : Packed O reads v' := by
  obtain ⟨requests, call, -, -, -, rfl⟩ := h
  exact hp.congr rfl rfl (map_fst_padded O v)

/-! ## A crown of full buckets -/

/-- a block that was accessed, and is not moved past its exit, survives -/
theorem survives_of_not_touched {h : ℕ} {T : Finset ℕ} {id leaf : ℕ} (hf : leaf < 2 ^ (h - 1))
    (hreads : ∀ r ∈ reads, r.2 < 2 ^ (h - 1)) (hid : id ∈ reads.map Prod.fst)
    (hnot : ∀ level < h, exit h T leaf = some (node h level leaf) → ¬ Touched h reads id leaf level) :
    Survives (exit h T) reads id leaf := by
  induction reads with
  | nil => simp at hid
  | cons access reads ih =>
    refine ⟨?_, ?_⟩
    · by_contra hboth
      rw [not_or, not_not] at hboth
      obtain ⟨hsome, hsame⟩ := hboth
      obtain ⟨u, hu⟩ := Option.ne_none_iff_exists'.1 hsome
      obtain ⟨level, hl, rfl, -⟩ := exit_eq_some hu
      obtain ⟨level', hl', he, -⟩ := exit_eq_some (hsame.trans hu)
      obtain rfl := node_level_inj hl' hl (hreads _ List.mem_cons_self) hf he
      exact hnot level' hl hu (Or.inl he)
    · by_cases hfirst : access.1 = id
      · exact Or.inl hfirst
      · refine Or.inr (ih (fun r hr => hreads r (List.mem_cons_of_mem _ hr)) ?_ fun level hl he ht => ?_)
        · rw [List.map_cons, List.mem_cons] at hid
          exact hid.resolve_left (Ne.symm hfirst)
        · exact hnot level hl he (Or.inr ⟨hfirst, ht⟩)

/-- a packed block survives in the crown of the full buckets, if it is above or in it -/
theorem packed_survives (hv : Inv O c v) (hp : Packed O reads v) (hreads : ∀ r ∈ reads, r.2 < 2 ^ (O.height - 1)) {id : ℕ}
    (hid : id < 2 ^ O.height * O.Z) (hreal : id ≠ ulongMax) (haccessed : id ∈ reads.map Prod.fst)
    (hplace : (∃ d, v.stash id = some d) ∨ ∃ ℓ ∈ fullCrown O.height (Full v), ∃ x ∈ v.tree ℓ, x.1 = id) :
    Survives (exit O.height (fullCrown O.height (Full v))) reads id (v.pos id) := by
  have hf := hv.pos_lt id hid
  apply survives_of_not_touched hf hreads haccessed
  intro level hl he htouched
  obtain ⟨level', hl', hnode, hout, hbefore⟩ := exit_eq_some he
  obtain rfl := node_level_inj hl' hl hf hf hnode
  have habove : Above O v id level' := by
    apply hplace.imp_right
    rintro ⟨ℓ, hℓ, x, hx, rfl⟩
    obtain ⟨k, hk, rfl⟩ := mem_path.1 (hv.tree_path ℓ x hx hreal)
    refine ⟨k, ?_, x, hx, rfl⟩
    by_contra hle
    exact hout ((fullCrown_crown _ _).node_mem (not_lt.1 hle) hk hℓ)
  exact hout (node_mem_fullCrown hl hf (hp id hreal level' hl habove htouched) hbefore)

/-- under a block of the stash the root is full -/
theorem root_mem_fullCrown (hv : Inv O c v) (hp : Packed O reads v) (hreads : ∀ r ∈ reads, r.2 < 2 ^ (O.height - 1))
    (hh : 1 ≤ O.height) {id : ℕ} {d : Bytes} (hd : v.stash id = some d) (hreal : id ≠ ulongMax)
    (haccessed : id ∈ reads.map Prod.fst) : 1 ∈ fullCrown O.height (Full v) := by
  have hf := hv.pos_lt id (hv.stash_id id d hd)
  have htouched : Touched O.height reads id (v.pos id) 0 := by
    cases reads with
    | nil => simp at haccessed
    | cons access reads =>
      left
      rw [node_zero hh hf, node_zero hh (hreads access List.mem_cons_self)]
  have hfull := hp id hreal 0 hh (Or.inl ⟨d, hd⟩) htouched
  have hmem := node_mem_fullCrown hh hf hfull fun k hk => absurd hk (Nat.not_lt_zero k)
  rwa [node_zero hh hf] at hmem

/-- the blocks of full buckets -/
theorem length_realIds (hv : Shape O v) (hcapacity : 2 ^ O.height ≤ O.storage.capacity) {T : List ℕ}
    (hT : ∀ ℓ ∈ T, ℓ < 2 ^ O.height ∧ Full v ℓ) : (T.flatMap fun ℓ => realIds (v.tree ℓ)).length = T.length * O.Z := by
  induction T with
  | nil => simp
  | cons ℓ T ih =>
    obtain ⟨hlt, hfull⟩ := hT ℓ List.mem_cons_self
    have hreal : (v.tree ℓ).filter (fun x => x.1 ≠ ulongMax) = v.tree ℓ := List.filter_eq_self.2 fun x hx =>
      decide_eq_true (hfull x hx)
    rw [List.flatMap_cons, List.length_append, ih fun ℓ hm => hT ℓ (List.mem_cons_of_mem _ hm), realIds, hreal,
      List.length_map, hv.bucket_length ℓ (hlt.trans_le hcapacity), List.length_cons, Nat.succ_mul, Nat.add_comm]

/-- **A crown of full buckets** under the stash: the blocks of both have survived in it. -/
theorem exists_crown (L : LawfulOram O) (hv : Inv O c v) (hu : Unique v) {s : OramState β μ} (hs : L.Sees v s)
    (hp : Packed O reads v) (hreads : ∀ r ∈ reads, r.2 < 2 ^ (O.height - 1)) {ids : Finset ℕ}
    (hheld : ∀ id, c id ≠ none → id ∈ ids ∧ id ∈ reads.map Prod.fst) :
    ∃ T ∈ crowns O.height, (0 < s.stash.size → T.Nonempty) ∧
      ∃ kept ⊆ ids, (∀ id ∈ kept, Survives (exit O.height T) reads id (v.pos id)) ∧
        O.Z * T.card + s.stash.size = kept.card := by
  set T := fullCrown O.height (Full v) with hT
  let below : List ℕ := T.toList.flatMap fun ℓ => realIds (v.tree ℓ)
  have hbelow : below.Nodup := realIds_nodup hu T.nodup_toList
  have hlength : below.length = T.card * O.Z := by
    rw [← Finset.length_toList]
    apply length_realIds hv.toShape L.capacity_ge
    intro ℓ hℓ
    have hmem := Finset.mem_toList.1 hℓ
    exact ⟨(mem_fullCrown.1 hmem).1, full_of_mem hmem⟩
  have hplace : ∀ id ∈ s.stash.keySet ∪ below.toFinset, c id ≠ none ∧
      ((∃ d, v.stash id = some d) ∨ ∃ ℓ ∈ T, ∃ x ∈ v.tree ℓ, x.1 = id) := by
    intro id hid
    rcases Finset.mem_union.1 hid with hid | hid
    · obtain ⟨d, hd⟩ := UnorderedMap.mem_iff_lookup.1 (UnorderedMap.mem_keySet.1 hid)
      have hstash : v.stash id = some d := (congrFun hs.stash id).trans hd
      obtain ⟨p, hc, -⟩ := hv.stash_good id d hstash
      exact ⟨by simp [hc], Or.inl ⟨d, hstash⟩⟩
    · obtain ⟨ℓ, hℓ, hm⟩ := List.mem_flatMap.1 (List.mem_toFinset.1 hid)
      obtain ⟨x, hx, rfl⟩ := List.mem_map.1 hm
      obtain ⟨hx, hreal⟩ := List.mem_filter.1 hx
      obtain ⟨p, hc, -⟩ := hv.tree_good ℓ x hx (of_decide_eq_true hreal)
      exact ⟨by simp [hc], Or.inr ⟨ℓ, Finset.mem_toList.1 hℓ, x, hx, rfl⟩⟩
  have hdisjoint : Disjoint s.stash.keySet below.toFinset := by
    apply Finset.disjoint_left.2
    intro id hid hm
    obtain ⟨d, hd⟩ := UnorderedMap.mem_iff_lookup.1 (UnorderedMap.mem_keySet.1 hid)
    obtain ⟨ℓ, -, hm⟩ := List.mem_flatMap.1 (List.mem_toFinset.1 hm)
    obtain ⟨x, hx, rfl⟩ := List.mem_map.1 hm
    exact hu.stash x.1 d ((congrFun hs.stash x.1).trans hd) ℓ x (List.mem_filter.1 hx).1 rfl
  have hroot : 0 < s.stash.size → T.Nonempty := by
    intro hsize
    rw [← UnorderedMap.card_keySet] at hsize
    obtain ⟨id, hid⟩ := Finset.card_pos.1 hsize
    obtain ⟨d, hd⟩ := UnorderedMap.mem_iff_lookup.1 (UnorderedMap.mem_keySet.1 hid)
    have hstash : v.stash id = some d := (congrFun hs.stash id).trans hd
    have hc := (hplace id (Finset.mem_union_left _ hid)).1
    exact ⟨1, root_mem_fullCrown hv hp hreads L.height_pos hstash (ne_ulongMax L (hv.stash_id id d hstash)) (hheld id hc).2⟩
  refine ⟨T, mem_crowns.2 (fullCrown_crown _ _), hroot, s.stash.keySet ∪ below.toFinset, fun id hid => ?_,
    fun id hid => ?_, ?_⟩
  · exact (hheld id (hplace id hid).1).1
  · obtain ⟨hc, hwhere⟩ := hplace id hid
    obtain ⟨p, hc'⟩ := Option.ne_none_iff_exists'.1 hc
    have hlt := hv.id_lt id p hc'
    exact packed_survives hv hp hreads hlt (ne_ulongMax L hlt) (hheld id hc).2 hwhere
  · rw [Finset.card_union_of_disjoint hdisjoint, UnorderedMap.card_keySet, List.toFinset_card_of_nodup hbelow, hlength]
    ring

end LawfulOram

end PathOram
