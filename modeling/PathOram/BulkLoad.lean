/-
What a bulk load leaves, and when it is accepted.

- `inv_loaded`, `unique_loaded`: the ORAM holds the records, each once, as if they had been put.
- `load_answers`: **bulk load is putting every record**, for the ORAM over in-memory adapters.
- `load_accepts_iff`: **the load accepts what the tree can hold**, but for one size: as many buckets as the tree has
  numbers, in a storage with room for more.
-/
import PathOram.Load
import PathOram.Correctness

namespace PathOram

open Lib

/-! ## The contents -/

/-- the records as accesses that write them -/
def puts (data : List Block) : List Op := data.map fun b => ⟨false, b.1, b.2⟩

theorem after_puts {data : List Block} (hd : (data.map Prod.fst).Nodup) (c : Contents) (id : ℕ) (p : Bytes) :
    c.after (puts data) id = some p ↔ (id, p) ∈ data ∨ id ∉ data.map Prod.fst ∧ c id = some p := by
  induction data generalizing c with
  | nil => simp [puts]
  | cons b data ih =>
    rw [List.map_cons, List.nodup_cons] at hd
    change (c.apply ⟨false, b.1, b.2⟩).after (puts data) id = some p ↔ _
    rw [ih hd.2, c.apply_write rfl, Function.update_apply, List.map_cons]
    obtain ⟨k, d⟩ := b
    rcases eq_or_ne id k with rfl | hne
    · have hnew : (id, p) ∉ data := fun h => hd.1 (List.mem_map.2 ⟨(id, p), h, rfl⟩)
      simp [hnew, hd.1, eq_comm]
    · simp [hne]

theorem after_puts_none {data : List Block} (hd : (data.map Prod.fst).Nodup) {id : ℕ} {p : Bytes} :
    Contents.after (fun _ => none) (puts data) id = some p ↔ (id, p) ∈ data := by
  rw [after_puts hd]
  simp

namespace LawfulOram

variable {β μ : Type} {O : Oram β μ} {L : LawfulOram O} {v v' : View}

/-! ## What is in the tree -/

theorem Inv.stash_none (hv : Inv O (fun _ => none) v) (k : ℕ) : v.stash k = none := by
  cases hk : v.stash k with
  | none => rfl
  | some d =>
    obtain ⟨p, hp, -⟩ := hv.stash_good k d hk
    cases hp

theorem Inv.tree_dummy (hv : Inv O (fun _ => none) v) {ℓ : ℕ} {x : Block} (hx : x ∈ v.tree ℓ) : x.1 = ulongMax := by
  by_contra hne
  obtain ⟨p, hp, -⟩ := hv.tree_good ℓ x hx hne
  cases hp

section Collected

variable {data order : List Block} {requests : List (ℕ × Bucket)} {v₁ : View}

theorem Collected.nodup (hh : O.height ≤ 30) (hd : Loadable O data) (hZ : 0 < O.Z)
    (h : Collected O data v order requests v₁) : (requests.map Prod.fst).Nodup := by
  rw [h.locations]
  apply (List.nodup_map_iff_inj_on List.nodup_range).2
  intro i hi j hj he
  have hi := List.mem_range.1 hi
  have hmono : StrictMono (O.loadLocation (O.bucketCount data)) := fun i j hij =>
    loadLocation_strictMono hh (hd.bucketCount_le hZ) (by omega) hij
  exact hmono.injective he

/-- the real blocks that are sent are the records -/
theorem Collected.real (L : LawfulOram O) (hd : Loadable O data) (h : Collected O data v order requests v₁) :
    (requests.flatMap Prod.snd).filter (fun x => x.1 ≠ ulongMax) = order := by
  obtain ⟨k, -, hrecords⟩ := h.records
  have horder : order.filter (fun x => x.1 ≠ ulongMax) = order := List.filter_eq_self.2 fun b hb => by
    simpa using ne_ulongMax L (hd.id_lt b (h.perm.subset hb))
  have hdummies : (List.replicate k (ulongMax, ([] : Bytes))).filter (fun x => x.1 ≠ ulongMax) = [] :=
    List.filter_eq_nil_iff.2 fun b hb => by simp [List.eq_of_mem_replicate hb]
  rw [hrecords, List.filter_append, horder, hdummies, List.append_nil]

/-- a bucket of the tree after the load was sent or is as it was -/
theorem Collected.tree_cases (hn : (requests.map Prod.fst).Nodup) (tree : ℕ → Bucket) (ℓ : ℕ) :
    (∃ r ∈ requests, r.1 = ℓ ∧ writeAll tree (O.storage.storedRequests requests) ℓ = O.storage.stored r.2) ∨
      ℓ ∉ requests.map Prod.fst ∧ writeAll tree (O.storage.storedRequests requests) ℓ = tree ℓ := by
  by_cases hℓ : ℓ ∈ requests.map Prod.fst
  · obtain ⟨r, hr, rfl⟩ := List.mem_map.1 hℓ
    refine Or.inl ⟨r, hr, rfl, writeAll_of_mem _ _ ?_ (List.mem_map.2 ⟨r, hr, rfl⟩)⟩
    rwa [StorageAdapter.storedRequests_fst]
  · refine Or.inr ⟨hℓ, writeAll_of_notMem _ _ ?_⟩
    rwa [StorageAdapter.storedRequests_fst]

end Collected

/-- a real block in the tree after a load is a record in the bucket it was put into -/
theorem Loaded.real (L : LawfulOram O) (hh : O.height ≤ 30) (hv : Inv O (fun _ => none) v) {data order : List Block}
    (hd : Loadable O data) {requests : List (ℕ × Bucket)} {v₁ : View} (h : Collected O data v order requests v₁) {ℓ : ℕ}
    {x : Block} (hx : x ∈ writeAll v.tree (O.storage.storedRequests requests) ℓ) (hne : x.1 ≠ ulongMax) :
    ∃ r ∈ requests, r.1 = ℓ ∧ ∃ b ∈ r.2, b ∈ data ∧ x = (b.1, zeroPad O.storage.userBlockSize b.2) := by
  rcases Collected.tree_cases (h.nodup hh hd L.Z_pos) v.tree ℓ with ⟨r, hr, hrℓ, htree⟩ | ⟨-, htree⟩
  · rw [htree] at hx
    obtain ⟨b, hb, rfl⟩ := List.mem_map.1 hx
    refine ⟨r, hr, hrℓ, b, hb, h.perm.subset ?_, rfl⟩
    rw [← h.real L hd]
    exact List.mem_filter.2 ⟨List.mem_flatMap.2 ⟨r, hr, hb⟩, by simpa using hne⟩
  · rw [htree] at hx
    exact absurd (hv.tree_dummy hx) hne

/-- every record is in some bucket that was sent -/
theorem Collected.exists_request {data order : List Block} {requests : List (ℕ × Bucket)} {v₁ : View}
    (h : Collected O data v order requests v₁) {b : Block} (hb : b ∈ data) : ∃ r ∈ requests, b ∈ r.2 := by
  obtain ⟨k, -, hrecords⟩ := h.records
  have hm : b ∈ requests.flatMap Prod.snd := hrecords ▸ List.mem_append_left _ (h.perm.symm.subset hb)
  exact List.mem_flatMap.1 hm

/-- **After a load the ORAM holds the records.** -/
theorem inv_loaded (L : LawfulOram O) (hh : O.height ≤ 30) (hv : Inv O (fun _ => none) v) {data order : List Block}
    (hd : Loadable O data) (hcount : O.bucketCount data < 2 ^ O.height) (h : Loaded O data v order v') :
    Inv O (Contents.after (fun _ => none) (puts data)) v' := by
  obtain ⟨requests, call, v₁, hcol, -, rfl⟩ := h
  have hframe := hcol.frame
  have hlt : ∀ r ∈ requests, r.1 < 2 ^ O.height := hcol.locations_lt fun i hi => loadLocation_lt hh hcount hi
  have hn := hcol.nodup hh hd L.Z_pos
  have hstash : ∀ k, v₁.stash k = none := fun k => by
    rw [hframe]
    exact hv.stash_none k
  have haccepts := hcol.accepts L hd fun r hr => (hlt r hr).trans_le L.capacity_ge
  have hreal := fun {ℓ} {x : Block} => Loaded.real L hh hv hd hcol (ℓ := ℓ) (x := x)
  have hleaf : ∀ b ∈ data, v₁.pos b.1 < 2 ^ (O.height - 1) ∧ ∀ r ∈ requests, b ∈ r.2 → r.1 ∈ path O.height (v₁.pos b.1) := by
    intro b hb
    have hassigned := fun r hr hbr => hcol.assigned r hr b hbr (ne_ulongMax L (hd.id_lt b hb)) (hlt r hr)
    obtain ⟨r, hr, hbr⟩ := hcol.exists_request hb
    exact ⟨(hassigned r hr hbr).1, fun r hr hbr => (hassigned r hr hbr).2⟩
  refine ⟨⟨fun i hi => ?_, fun ℓ hℓ => ?_, fun ℓ x hx => ?_, fun ℓ x hx => ?_, fun k d hk => ?_, fun k d hk => ?_,
    fun ℓ hℓ => ?_⟩, fun k d hk => ?_, fun ℓ x hx hne => ?_, fun ℓ x hx hne => ?_, fun k p hk => ?_, fun k p hk => ?_⟩
  · by_cases hm : i ∈ data.map Prod.fst
    · obtain ⟨b, hb, rfl⟩ := List.mem_map.1 hm
      exact (hleaf b hb).1
    · change v₁.pos i < _
      rw [hcol.others i hm]
      exact hv.pos_lt i hi
  · rcases Collected.tree_cases (O := O) hn v.tree ℓ with ⟨r, hr, -, htree⟩ | ⟨-, htree⟩
    · exact (congrArg List.length htree).trans (by rw [StorageAdapter.length_stored, hcol.full r hr])
    · exact (congrArg List.length htree).trans (hv.bucket_length ℓ hℓ)
  · by_cases hne : x.1 = ulongMax
    · exact Or.inl hne
    · obtain ⟨r, -, -, b, -, hb, rfl⟩ := hreal hx hne
      exact Or.inr (hd.id_lt b hb)
  · rcases Collected.tree_cases (O := O) hn v.tree ℓ with ⟨r, hr, -, htree⟩ | ⟨-, htree⟩
    · change x ∈ writeAll v.tree _ ℓ at hx
      rw [htree] at hx
      obtain ⟨b, hb, rfl⟩ := List.mem_map.1 hx
      exact (length_zeroPad ((haccepts r hr).data_le b hb)).le
    · change x ∈ writeAll v.tree _ ℓ at hx
      rw [htree] at hx
      exact hv.tree_data ℓ x hx
  · exact absurd ((hstash k).symm.trans hk) (by simp)
  · exact absurd ((hstash k).symm.trans hk) (by simp)
  · change v₁.cached ℓ = true at hℓ
    rw [hframe] at hℓ
    exact hv.cached_lt ℓ hℓ
  · exact absurd ((hstash k).symm.trans hk) (by simp)
  · obtain ⟨r, -, -, b, -, hb, rfl⟩ := hreal hx hne
    exact ⟨b.2, (after_puts_none hd.nodup).2 hb, zeroPadded_zeroPad _ _⟩
  · obtain ⟨r, hr, rfl, b, hbr, hb, rfl⟩ := hreal hx hne
    exact (hleaf b hb).2 r hr hbr
  · exact hd.id_lt _ ((after_puts_none hd.nodup).1 hk)
  · have hb := (after_puts_none hd.nodup).1 hk
    obtain ⟨r, hr, hbr⟩ := hcol.exists_request hb
    rcases Collected.tree_cases (O := O) hn v.tree r.1 with ⟨r', hr', he, htree⟩ | ⟨hnot, -⟩
    · have hrr : r' = r := by
        have := List.inj_on_of_nodup_map hn hr' hr he
        exact this
      subst hrr
      refine Or.inr ⟨r'.1, (k, zeroPad O.storage.userBlockSize p), ?_, rfl⟩
      change _ ∈ writeAll v.tree _ r'.1
      rw [htree]
      exact List.mem_map.2 ⟨(k, p), hbr, rfl⟩
    · exact absurd (List.mem_map_of_mem hr) hnot

/-- **After a load every record is there once.** -/
theorem unique_loaded (L : LawfulOram O) (hh : O.height ≤ 30) (hv : Inv O (fun _ => none) v) {data order : List Block}
    (hd : Loadable O data) (h : Loaded O data v order v') : Unique v' := by
  obtain ⟨requests, call, v₁, hcol, -, rfl⟩ := h
  have hframe := hcol.frame
  have hn := hcol.nodup hh hd L.Z_pos
  have hreal := fun {ℓ} {x : Block} => Loaded.real L hh hv hd hcol (ℓ := ℓ) (x := x)
  have hkeys : ((requests.flatMap fun r => r.2.filter fun x => x.1 ≠ ulongMax).map Prod.fst).Nodup := by
    rw [← List.filter_flatMap, hcol.real L hd]
    exact (hd.perm hcol.perm).nodup
  refine ⟨fun k d hk ℓ x hx => ?_, fun ℓ => ?_, fun ℓ ℓ' x hx y hy he hne => ?_⟩
  · change v₁.stash k = some d at hk
    rw [hframe] at hk
    exact absurd ((hv.stash_none k).symm.trans hk) (by simp)
  · change (((writeAll v.tree (O.storage.storedRequests requests) ℓ).filter fun x => x.1 ≠ ulongMax).map Prod.fst).Nodup
    rcases Collected.tree_cases (O := O) hn v.tree ℓ with ⟨r, hr, -, htree⟩ | ⟨-, htree⟩
    · have hfst : ((O.storage.stored r.2).filter fun x => x.1 ≠ ulongMax).map Prod.fst =
          (r.2.filter fun x => x.1 ≠ ulongMax).map Prod.fst := by
        rw [StorageAdapter.stored, List.filter_map, List.map_map]
        rfl
      rw [htree, hfst]
      refine hkeys.sublist ?_
      rw [List.map_flatMap]
      exact List.sublist_flatten_of_mem (List.mem_map.2 ⟨r, hr, rfl⟩)
    · have hnil : (v.tree ℓ).filter (fun x => x.1 ≠ ulongMax) = [] :=
        List.filter_eq_nil_iff.2 fun x hx => by simp [hv.tree_dummy hx]
      rw [htree, hnil]
      exact List.nodup_nil
  · obtain ⟨r, hr, rfl, b, hbr, -, rfl⟩ := hreal hx hne
    obtain ⟨r', hr', rfl, b', hbr', -, rfl⟩ := hreal hy (he ▸ hne)
    have hb : b ∈ r.2.filter fun x => x.1 ≠ ulongMax := List.mem_filter.2 ⟨hbr, by simpa using hne⟩
    have hb' : b' ∈ r'.2.filter fun x => x.1 ≠ ulongMax := List.mem_filter.2 ⟨hbr', by simpa using he ▸ hne⟩
    rw [eq_of_mem_flatMap hkeys hr hr' hb hb' he]

/-- **A load that returns** leaves an ORAM that holds the records, as if they had been put. -/
theorem load_triple (L : LawfulOram O) (hh : O.height ≤ 30) {data : List Block} (hd : Loadable O data)
    (hcount : O.bucketCount data < 2 ^ O.height) :
    Triple (L.HoldsOnce fun _ => none) (O.load data)
      (fun _ => L.HoldsOnce (Contents.after (fun _ => none) (puts data))) (fun e _ => L.Throws e) := by
  apply Triple.exists_pre
  intro v
  apply Triple.of_pure
  intro hv
  apply Triple.of_pure
  intro _
  apply Triple.of_pure
  intro hcached
  refine Triple.conseq (load_refines L hh hd (fun ℓ => by rw [hcached]) (Or.inl hcount)) (fun _ hs => hs) ?_
    fun e s hs => hs.imp_right fun ⟨_, hfault, _⟩ => Or.inl hfault
  rintro order s ⟨v', hloaded, hs⟩
  refine ⟨v', inv_loaded L hh hv hd hcount hloaded, unique_loaded L hh hv hd hloaded, ?_, hs⟩
  obtain ⟨requests, call, v₁, hcol, -, rfl⟩ := hloaded
  have hframe := hcol.frame
  rw [hframe]
  exact hcached

end LawfulOram

/-! ## Load and run -/

section

variable {A : AbsStorageAdapter} {crypto : Crypto} {mapCapacity stashCapacity height batchSize : ℕ}

/-- a load from a view of the state that the constructor leaves -/
theorem constructed_load (h : Sizes A crypto mapCapacity height) (hh : height ≤ 30)
    {s₀ s₁ : OramState (BlockArray A.capacity A.blockSize) (PositionArray mapCapacity)} (hfresh : Fresh s₀) {w₀ w₁ : World}
    (hconstruct : (inMemoryOram A crypto mapCapacity stashCapacity height batchSize).construct.exec w₀ s₀ = (.ok (), w₁, s₁))
    {data : List Block}
    (hd : LawfulOram.Loadable (inMemoryOram A crypto mapCapacity stashCapacity height batchSize) data)
    (hfits : (inMemoryOram A crypto mapCapacity stashCapacity height batchSize).bucketCount data < 2 ^ height ∨
      2 ^ height < A.capacity) (w : World) :
    ∃ v order w' s v', LawfulOram.Inv (inMemoryOram A crypto mapCapacity stashCapacity height batchSize) (fun _ => none) v ∧
      v.calls = s₁.storage.calls ∧ v.cached = (fun _ => false) ∧
      ((inMemoryOram A crypto mapCapacity stashCapacity height batchSize).load data).exec w s₁ = (.ok order, w', s) ∧
      LawfulOram.Loaded (inMemoryOram A crypto mapCapacity stashCapacity height batchSize) data v order v' ∧
      (inMemoryOram_lawful h stashCapacity batchSize).Sees v' s := by
  set L := inMemoryOram_lawful h stashCapacity batchSize with hL
  obtain ⟨v, hv, -, hcached, hs⟩ :=
    (LawfulOram.construct_triple L).ok (inMemoryOram_fresh h stashCapacity batchSize hfresh) hconstruct
  have hload := LawfulOram.load_refines (v := v) L hh hd (fun ℓ => by rw [hcached]) hfits w s₁ hs
  obtain ⟨store, hstore, -⟩ := hs.tree
  rcases hrun : ((inMemoryOram A crypto mapCapacity stashCapacity height batchSize).load data).exec w s₁ with ⟨e | order, w', s⟩
  · rw [hrun] at hload
    rcases hload with he | ⟨_, he, -⟩
    exacts [he.elim, he.elim]
  · rw [hrun] at hload
    obtain ⟨v', hloaded, hs'⟩ := hload
    exact ⟨v, order, w', s, v', hv, hstore.2.2.symm, hcached, rfl, hloaded, hs'⟩

/-- what a load sends: the records in some order, in full buckets of different locations on the paths of their leaves -/
structure LoadSent {β μ : Type} (O : Oram β μ) (data : List Block) (leafOf : ℕ → Option ℕ) (order : List Block)
    (requests : List (ℕ × Bucket)) : Prop where
  perm : order.Perm data
  padded : ∃ k < O.Z, requests.flatMap Prod.snd = order ++ List.replicate k (ulongMax, [])
  nodup : (requests.map Prod.fst).Nodup
  full : ∀ r ∈ requests, r.2.length = O.Z
  on_path : ∀ r ∈ requests, ∀ b ∈ r.2, b.1 ≠ ulongMax →
    ∃ leaf < 2 ^ (O.height - 1), leafOf b.1 = some leaf ∧ ∃ level < O.height, O.bucketForLevelLeaf level leaf = r.1

/-- **Bulk load is putting every record.** On an initialised ORAM over in-memory adapters a load of at most 2^height - 1
buckets does not throw. It sends full buckets to different locations, every record to one on the path of its leaf, each
record is then there once, and later calls reply as if the records had been put. -/
theorem load_answers (h : Sizes A crypto mapCapacity height) (hh : height ≤ 30) (hsmall : 2 ^ height * A.Z ≤ 2 ^ 31)
    {s₀ s₁ : OramState (BlockArray A.capacity A.blockSize) (PositionArray mapCapacity)} (hfresh : Fresh s₀) {w₀ w₁ : World}
    (hconstruct : (inMemoryOram A crypto mapCapacity stashCapacity height batchSize).construct.exec w₀ s₀ = (.ok (), w₁, s₁))
    {data : List Block}
    (hd : LawfulOram.Loadable (inMemoryOram A crypto mapCapacity stashCapacity height batchSize) data)
    (hcount : (inMemoryOram A crypto mapCapacity stashCapacity height batchSize).bucketCount data ≤ 2 ^ height - 1) (w : World) :
    ∃ order w' s requests writes bucketAt,
      ((inMemoryOram A crypto mapCapacity stashCapacity height batchSize).load data).exec w s₁ = (.ok order, w', s) ∧
      s.storage.calls = s₁.storage.calls ++ [.set writes] ∧ writes.map Prod.fst = requests.map Prod.fst ∧
      LoadSent (inMemoryOram A crypto mapCapacity stashCapacity height batchSize) data (fun id => s.map[id]?) order requests ∧
      (∀ ℓ < A.capacity, (inMemoryOram A crypto mapCapacity stashCapacity height batchSize).storage.decodeBucket
        (s.storage.backend.read ℓ) = .ok (bucketAt ℓ)) ∧
      (∀ r ∈ requests, bucketAt r.1 = (inMemoryOram A crypto mapCapacity stashCapacity height batchSize).storage.stored r.2) ∧
      PathInvariant (inMemoryOram A crypto mapCapacity stashCapacity height batchSize) s bucketAt (fun id => s.map[id]?)
        (fun id => id ∈ data.map Prod.fst) ∧
      ∀ calls, (∀ call ∈ calls, call.Valid (inMemoryOram A crypto mapCapacity stashCapacity height batchSize)) →
        ∀ w₂ replies w₃ s₃, ((inMemoryOram A crypto mapCapacity stashCapacity height batchSize).run calls).exec w₂ s =
          (.ok replies, w₃, s₃) → Contents.RepliesAll (Contents.after (fun _ => none) (puts data)) calls replies := by
  have hpos := Nat.two_pow_pos height
  have hcount' : (inMemoryOram A crypto mapCapacity stashCapacity height batchSize).bucketCount data < 2 ^ height := by omega
  obtain ⟨v, order, w', s, v', hv, hcalls, hcached, hexec, hloaded, hs⟩ :=
    constructed_load h hh hfresh hconstruct hd (Or.inl hcount') w
  set L := inMemoryOram_lawful h stashCapacity batchSize with hL
  have hinv := LawfulOram.inv_loaded L hh hv hd hcount' hloaded
  have hunique := LawfulOram.unique_loaded L hh hv hd hloaded
  obtain ⟨requests, call, v₁, hcol, ⟨writes, rfl, hwrites, -⟩, rfl⟩ := hloaded
  have hcached' : ∀ ℓ, v₁.cached ℓ = false := fun ℓ => by
    have hframe := hcol.frame
    rw [hframe]
    exact congrFun hcached ℓ
  have hholds : L.HoldsOnce (Contents.after (fun _ => none) (puts data)) s :=
    ⟨_, hinv, hunique, funext hcached', hs⟩
  have hlt : ∀ r ∈ requests, r.1 < 2 ^ height := hcol.locations_lt fun i hi => loadLocation_lt hh hcount' hi
  have hn := hcol.nodup hh hd L.Z_pos
  have hput : (fun id => id ∈ data.map Prod.fst) = fun id => Contents.after (fun _ => none) (puts data) id ≠ none := by
    funext id
    rw [eq_iff_iff, Option.ne_none_iff_exists', List.mem_map]
    constructor
    · rintro ⟨b, hb, rfl⟩
      exact ⟨b.2, (after_puts_none hd.nodup).2 hb⟩
    · rintro ⟨p, hp⟩
      exact ⟨(id, p), (after_puts_none hd.nodup).1 hp, rfl⟩
  obtain ⟨bucketAt, hdecode, hpath⟩ := pathInvariant_of_holdsOnce h hholds
  obtain ⟨hempty, htree⟩ := LawfulOram.Sees.decode hs (funext hcached')
  obtain ⟨store, hstore, -⟩ := hs.tree
  refine ⟨order, w', s, requests, writes, bucketAt, hexec, ?_, hwrites, ⟨hcol.perm, hcol.records, hn, hcol.full, ?_⟩,
    hdecode, fun r hr => ?_, hput ▸ hpath, ?_⟩
  · rw [hstore.2.2, hcalls]
  · intro r hr b hb hne
    have hid : b.1 < 2 ^ height * A.Z := by
      obtain ⟨k, -, hrecords⟩ := hcol.records
      have hm : b ∈ order ++ List.replicate k (ulongMax, []) := hrecords ▸ List.mem_flatMap.2 ⟨r, hr, hb⟩
      rcases List.mem_append.1 hm with hm | hm
      · exact hd.id_lt b (hcol.perm.subset hm)
      · exact absurd (by rw [List.eq_of_mem_replicate hm]) hne
    obtain ⟨hleaf, hmem⟩ := hcol.assigned r hr b hb hne (hlt r hr)
    obtain ⟨level, hlevel, hnode⟩ := mem_path.1 hmem
    refine ⟨v₁.pos b.1, hleaf, inMemoryOram_position h stashCapacity batchSize hs hid, level, hlevel, ?_⟩
    exact (L.bucketForLevelLeaf_eq hlevel hleaf).trans hnode
  · have hr' : r.1 < A.capacity := (hlt r hr).trans_le h.capacity_ge
    have hb := (hdecode r.1 hr').symm.trans (htree r.1 hr')
    rw [Except.ok.inj hb]
    refine writeAll_of_mem _ _ ?_ (List.mem_map.2 ⟨r, hr, rfl⟩)
    rwa [StorageAdapter.storedRequests_fst]
  · intro calls hvalid w₂ replies w₃ s₃ hrun
    exact ((LawfulOram.run_triple (L := L) hsmall hvalid).ok hholds hrun).1

end

/-- the constructor of the bushy ORAM returns -/
theorem bushy_construct :
    ((inMemoryOram bushyStorage plainCrypto 16 6 3 4).construct.exec countingWorld (zeroState bushyStorage 16)).1 = .ok () := by
  decide +kernel

/-- records for three buckets, of which the last is padded -/
def bushyRecords : List Block := [(0, [1]), (3, [2]), (5, [3]), (9, [4]), (14, [5])]

theorem bushy_loadable : LawfulOram.Loadable (inMemoryOram bushyStorage plainCrypto 16 6 3 4) bushyRecords :=
  ⟨by decide, by decide, by decide⟩

theorem load_answers_bushy : ∃ order s requests bucketAt,
    LoadSent (inMemoryOram bushyStorage plainCrypto 16 6 3 4) bushyRecords (fun id => s.map[id]?) order requests ∧
      PathInvariant (inMemoryOram bushyStorage plainCrypto 16 6 3 4) s bucketAt (fun id => s.map[id]?)
        (fun id => id ∈ bushyRecords.map Prod.fst) := by
  obtain ⟨order, _, s, requests, _, bucketAt, -, -, -, hsent, -, -, hinv, -⟩ := load_answers bushy_sizes (by decide)
    (by decide) (zeroState_fresh bushyStorage 16) (Prog.exec_eq bushy_construct) bushy_loadable (by decide) countingWorld
  exact ⟨order, s, requests, bucketAt, hsent, hinv⟩

/-! ## What is accepted -/

/-- a load throws if and only if there are more buckets than the tree has, and if it does not throw, every location that
it writes is one of the tree and every leaf that it assigns is a leaf of the tree -/
def LoadProperty {β : Type} {mapCapacity : ℕ} (O : Oram β (PositionArray mapCapacity)) (data : List Block) (w : World)
    (s : OramState β (PositionArray mapCapacity)) : Prop :=
  match (O.load data).exec w s with
  | (.error _, _, _) => 2 ^ O.height - 1 < O.bucketCount data
  | (.ok _, _, s') => O.bucketCount data ≤ 2 ^ O.height - 1 ∧
    (∃ writes, s'.storage.calls = s.storage.calls ++ [.set writes] ∧ ∀ x ∈ writes, 1 ≤ x.1 ∧ x.1 ≤ 2 ^ O.height - 1) ∧
    ∀ b ∈ data, ∃ leaf, s'.map[b.1]? = some leaf ∧ leaf ≤ 2 ^ (O.height - 1) - 1

section

variable {A : AbsStorageAdapter} {crypto : Crypto} {mapCapacity stashCapacity height batchSize : ℕ}

/-- **Bulk load accepts what the tree can hold** if and only if the data do not fill exactly as many buckets as the tree
has numbers, or the storage has no location past the tree. -/
theorem load_accepts_iff (h : Sizes A crypto mapCapacity height) (hh : height ≤ 30)
    {s₀ s₁ : OramState (BlockArray A.capacity A.blockSize) (PositionArray mapCapacity)} (hfresh : Fresh s₀) {w₀ w₁ : World}
    (hconstruct : (inMemoryOram A crypto mapCapacity stashCapacity height batchSize).construct.exec w₀ s₀ = (.ok (), w₁, s₁))
    {data : List Block}
    (hd : LawfulOram.Loadable (inMemoryOram A crypto mapCapacity stashCapacity height batchSize) data) (w : World) :
    LoadProperty (inMemoryOram A crypto mapCapacity stashCapacity height batchSize) data w s₁ ↔
      (inMemoryOram A crypto mapCapacity stashCapacity height batchSize).bucketCount data ≠ 2 ^ height ∨
        A.capacity = 2 ^ height := by
  have hpos := Nat.two_pow_pos height
  have hcap := h.capacity_ge
  set O := inMemoryOram A crypto mapCapacity stashCapacity height batchSize with hO
  set L : LawfulOram O := inMemoryOram_lawful h stashCapacity batchSize with hL
  have hcount : O.bucketCount data ≤ 2 ^ height := hd.bucketCount_le L.Z_pos
  have hheight : O.height = height := rfl
  by_cases hfits : O.bucketCount data < 2 ^ height ∨ 2 ^ height < A.capacity
  · -- the load returns
    obtain ⟨v, order, w', s, v', hv, hcalls, hcached, hexec, hloaded, hs⟩ := constructed_load h hh hfresh hconstruct hd hfits w
    unfold LoadProperty
    rw [hexec]
    dsimp only
    rw [hheight]
    constructor
    · intro hproperty
      exact Or.inl (by omega)
    · intro hcond
      have hcount' : O.bucketCount data < 2 ^ height := by omega
      have hinv := LawfulOram.inv_loaded L hh hv hd hcount' hloaded
      obtain ⟨requests, call, v₁, hcol, ⟨writes, rfl, hwrites, -⟩, rfl⟩ := hloaded
      have hlt : ∀ r ∈ requests, r.1 < 2 ^ height := hcol.locations_lt fun i hi => loadLocation_lt hh hcount' hi
      have hge : ∀ r ∈ requests, 1 ≤ r.1 := fun r hr => by
        have hm : r.1 ∈ requests.map Prod.fst := List.mem_map_of_mem hr
        rw [hcol.locations] at hm
        obtain ⟨i, -, hi⟩ := List.mem_map.1 hm
        rw [← hi, loadLocation_eq hh]
        exact Nat.le_add_right _ _
      obtain ⟨store, hstore, -⟩ := hs.tree
      refine ⟨by omega, ⟨writes, by rw [hstore.2.2, hcalls], fun x hx => ?_⟩, fun b hb => ?_⟩
      · have hm : x.1 ∈ requests.map Prod.fst := hwrites ▸ List.mem_map_of_mem hx
        obtain ⟨r, hr, hrx⟩ := List.mem_map.1 hm
        have h1 := hlt r hr
        have h2 := hge r hr
        omega
      · have hid := hd.id_lt b hb
        have hleaf : v₁.pos b.1 < 2 ^ (height - 1) := hinv.pos_lt b.1 hid
        exact ⟨v₁.pos b.1, inMemoryOram_position h stashCapacity batchSize hs hid, by omega⟩
  · -- the last location is past the storage
    have hfull : O.bucketCount data = 2 ^ height := by omega
    have hroom : A.capacity = 2 ^ height := by omega
    obtain ⟨v, hv, -, hcached, hs⟩ :=
      (LawfulOram.construct_triple L).ok (inMemoryOram_fresh h stashCapacity batchSize hfresh) hconstruct
    have hload := LawfulOram.load_rejects (v := v) L hh hd hfull hroom w s₁ hs
    unfold LoadProperty
    rcases hrun : (O.load data).exec w s₁ with ⟨e | order, w', s⟩
    · dsimp only
      rw [hfull, hheight]
      exact ⟨fun _ => Or.inr hroom, fun _ => by omega⟩
    · rw [hrun] at hload
      obtain ⟨_, hfalse, -⟩ := hload
      exact hfalse.elim

end

theorem load_accepts_iff_bushy : ∃ w s,
    (inMemoryOram bushyStorage plainCrypto 16 6 3 4).construct.exec countingWorld (zeroState bushyStorage 16) =
        (.ok (), w, s) ∧
      LoadProperty (inMemoryOram bushyStorage plainCrypto 16 6 3 4) bushyRecords countingWorld s := by
  obtain ⟨w, s, hconstruct⟩ : ∃ w s, (inMemoryOram bushyStorage plainCrypto 16 6 3 4).construct.exec countingWorld
      (zeroState bushyStorage 16) = (.ok (), w, s) := ⟨_, _, Prog.exec_eq bushy_construct⟩
  have hcount : (inMemoryOram bushyStorage plainCrypto 16 6 3 4).bucketCount bushyRecords ≠ 2 ^ 3 := by decide
  exact ⟨w, s, hconstruct, (load_accepts_iff bushy_sizes (by decide) (zeroState_fresh bushyStorage 16) hconstruct
    bushy_loadable countingWorld).2 (Or.inl hcount)⟩

/-- the tiny storage with one location more -/
def roomyStorage : AbsStorageAdapter :=
  ⟨List.replicate 32 0, 1, 0, 3, 32, zeroKey_length, two_blocks_32, whole_blocks_32, Nat.one_ne_zero⟩

/-- the constructor and a load of two records, for a tree of one bucket -/
theorem roomy_load :
    (((inMemoryOram roomyStorage plainCrypto 2 6 1 4).load [(0, [1]), (1, [2])]).exec zeroWorld
      ((inMemoryOram roomyStorage plainCrypto 2 6 1 4).construct.exec zeroWorld (zeroState roomyStorage 2)).2.2).1 =
      .ok [(0, [1]), (1, [2])] := by
  decide +kernel

/-- **A load that is accepted although the tree cannot hold it.** A tree of height 1 has one bucket; two buckets are
accepted, and the second is written past the tree. -/
theorem load_accepts_too_much :
    ((inMemoryOram roomyStorage plainCrypto 2 6 1 4).construct.exec zeroWorld (zeroState roomyStorage 2)).1 = .ok () ∧
      ¬ LoadProperty (inMemoryOram roomyStorage plainCrypto 2 6 1 4) [(0, [1]), (1, [2])] zeroWorld
        ((inMemoryOram roomyStorage plainCrypto 2 6 1 4).construct.exec zeroWorld (zeroState roomyStorage 2)).2.2 := by
  refine ⟨by decide +kernel, ?_⟩
  unfold LoadProperty
  rw [Prog.exec_eq roomy_load]
  intro hproperty
  exact absurd hproperty.1 (by decide)

end PathOram
