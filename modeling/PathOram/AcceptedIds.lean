/-
Block IDs that the position map accepts, and the locations they lead to.

The entry of an ID in the array of the map is taken for a leaf, and the buckets of its path are read and written. An entry
that is no leaf leads to location 0 or past the end of the tree. `Proper` are the IDs whose entries are leaves when the
ORAM is built.

- `entry_strays`: the path of an entry that is no leaf leaves the tree.
- `treeGuard_laws`: calls on proper IDs stay in the tree, and the two checks of IDs do not throw.
- `exec_strays`: a call on another ID that the map accepts leaves the tree, or one of the two checks throws.
- `attempts_led_iff`: **a run is led to buckets of the tree if and only if the IDs it has accepted are proper.**
-/
import PathOram.Guards
import PathOram.Checks
import PathOram.Outline
import PathOram.Rejection

namespace PathOram

open Lib

variable {β : Type}

/-! ## The record of calls -/

/-- the locations that a call of the storage names -/
def StorageCall.locations : StorageCall → List ℕ
  | .get locations => locations
  | .set writes => writes.map Prod.fst

/-- the calls after the first n name buckets of a tree -/
def StaysInTree (height n : ℕ) (t : StorageState β) : Prop :=
  ∀ call ∈ t.calls.drop n, ∀ ℓ ∈ call.locations, 1 ≤ ℓ ∧ ℓ < 2 ^ height

theorem StaysInTree.append {height n : ℕ} {t t' : StorageState β} (h : StaysInTree height n t)
    {new : List StorageCall} (ht : t'.calls = t.calls ++ new)
    (hnew : ∀ call ∈ new, ∀ ℓ ∈ call.locations, 1 ≤ ℓ ∧ ℓ < 2 ^ height) : StaysInTree height n t' := by
  intro call hcall
  rw [ht, List.drop_append] at hcall
  rcases List.mem_append.1 hcall with hcall | hcall
  · exact h call hcall
  · exact hnew call (List.mem_of_mem_drop hcall)

/-- the record is never shortened -/
theorem StaysInTree.of_prefix {height n : ℕ} {t t' : StorageState β} (h : StaysInTree height n t')
    (ht : t.calls <+: t'.calls) : StaysInTree height n t :=
  fun call hcall => h call ((ht.drop n).subset hcall)

namespace StorageAdapter

variable {S : StorageAdapter β} {P : StorageState β → Prop}

/-! ## Properties that longer records keep -/

section Keeps

variable (hP : ∀ t t' : StorageState β, t.calls <+: t'.calls → P t → P t')

include hP

theorem zoom_keeps {α : Type} (m : Run β α) :
    Triple P (Prog.zoom (StorageState.backendLens β) m) (fun _ => P) (fun _ => P) :=
  Triple.zoom_keeps (StorageState.backendLens β) (fun _ t ht => hP t _ (List.prefix_refl _) ht) m

theorem emit_keeps (supported : Bool) (event : StorageEvent) : Triple P (emit supported event) (fun _ => P) (fun _ => P) :=
  Triple.modify fun t ht => by
    split_ifs
    · exact hP t _ (List.prefix_refl _) ht
    · exact ht

theorem getAndRecord_keeps (location : ℕ) : Triple P (S.getAndRecord location) (fun _ => P) (fun _ => P) :=
  (zoom_keeps hP _).bind fun _ => (emit_keeps hP _ _).bind fun _ => Triple.pure fun _ ht => ht

theorem setAndRecord_keeps (location : ℕ) (raw : Bytes) :
    Triple P (S.setAndRecord location raw) (fun _ => P) (fun _ => P) :=
  (zoom_keeps hP _).bind fun _ => emit_keeps hP _ _

theorem getAndRecordBatch_keeps (locations : List ℕ) (response : List Bytes) :
    Triple P (S.getAndRecordBatch locations response) (fun _ => P) (fun _ => P) := by
  have hloop : ∀ fuel i response, Triple P (S.getInternalLoop locations fuel i response) (fun _ => P) (fun _ => P) := by
    intro fuel
    induction fuel with
    | zero => exact fun _ _ => Triple.throw fun _ ht => ht
    | succ fuel ih =>
      intro i response
      unfold getInternalLoop
      exact Triple.ite (fun _ => (getAndRecord_keeps hP _).bind fun _ => ih _ _) fun _ => Triple.pure fun _ ht => ht
  have hbatch : Triple P (S.getInternalBatch locations response) (fun _ => P) (fun _ => P) := by
    unfold getInternalBatch
    cases S.backend.getInternalBatch with
    | some get => exact zoom_keeps hP _
    | none => exact hloop _ _ _
  exact hbatch.bind fun _ => (emit_keeps hP _ _).bind fun _ => Triple.pure fun _ ht => ht

theorem setAndRecordBatch_keeps (writes : List (ℕ × Bytes)) :
    Triple P (S.setAndRecordBatch writes) (fun _ => P) (fun _ => P) := by
  have hbatch : Triple P (S.setInternalBatch writes) (fun _ => P) (fun _ => P) := by
    unfold setInternalBatch
    cases S.backend.setInternalBatch with
    | some set => exact zoom_keeps hP _
    | none => exact Triple.forM (fun _ => P) fun write _ _ => setAndRecord_keeps hP write.1 write.2
  exact hbatch.bind fun _ => emit_keeps hP _ _

theorem download_keeps (locations : List ℕ) : Triple P (S.download locations) (fun _ => P) (fun _ => P) := by
  rcases eq_or_ne locations [] with rfl | hne
  · rw [download_nil]
    exact getAndRecordBatch_keeps hP _ _
  · obtain ⟨slices, -, hget⟩ := download_slices (S := S) hne
    rw [hget]
    unfold readSlices
    split
    · exact (getAndRecord_keeps hP _).bind fun _ => Triple.pure fun _ ht => ht
    · exact Triple.foldlM (fun _ _ => P) (fun response slice _ _ => getAndRecordBatch_keeps hP slice response) _

theorem upload_keeps (writes : List (ℕ × Bytes)) : Triple P (S.upload writes) (fun _ => P) (fun _ => P) := by
  rcases eq_or_ne writes [] with rfl | hne
  · rw [upload_nil]
    exact setAndRecordBatch_keeps hP _
  · obtain ⟨slices, -, hset⟩ := upload_slices (S := S) hne
    rw [hset]
    unfold writeSlices
    split
    · exact setAndRecord_keeps hP _ _
    · exact Triple.forM (fun _ => P) fun slice _ _ => setAndRecordBatch_keeps hP slice

/-- what follows the record of a call keeps the property -/
theorem decoded_keeps (locations : List ℕ) : Triple P (do
    let raws ← S.download locations
    let buckets ← Prog.ofExcept (raws.mapM S.decodeBucket)
    return buckets.flatten : Run (StorageState β) (List Block)) (fun _ => P) (fun _ => P) :=
  (download_keeps hP locations).bind fun _ =>
    Triple.bind (Q := fun _ => P) (Triple.ofExcept (fun _ _ _ ht => ht) fun _ _ _ ht => ht) fun _ =>
      Triple.pure fun _ ht => ht

theorem get_keeps (locations : List ℕ) : Triple P (S.get locations) (fun _ => P) (fun _ => P) := by
  unfold get
  refine Triple.bind (Q := fun _ => P) ?_ fun _ => Triple.bind (Q := fun _ => P) ?_ fun _ => decoded_keeps hP locations
  · exact ((checkCapacities_triple locations).post fun _ _ ht => ht.2).conseq (fun _ ht => ht) (fun _ _ ht => ht)
      fun _ _ ht => ht.2
  · exact Triple.modify fun t ht => hP t _ (List.prefix_append _ _) ht

theorem set_keeps (requests : List (ℕ × Bucket)) : Triple P (S.set requests) (fun _ => P) (fun _ => P) := by
  intro w t ht
  unfold set
  rcases encodeRequests_checks (S := S) requests w t with ⟨writes, w', hexec, -, -⟩ | ⟨e, w', hexec, -⟩
  · rw [Prog.exec_bind_ok hexec]
    refine Triple.bind (Q := fun _ => P) ?_ (fun _ => upload_keeps hP writes) w' t ht
    exact Triple.modify fun t ht => hP t _ (List.prefix_append _ _) ht
  · rw [Prog.exec_bind_error hexec]
    exact ht

end Keeps

/-! ## A download of a location outside the tree -/

/-- if the check lets it through, it is recorded -/
theorem get_strays {locations : List ℕ} {height n : ℕ} (hbad : ∃ ℓ ∈ locations, ¬ (1 ≤ ℓ ∧ ℓ < 2 ^ height)) :
    Triple (fun t : StorageState β => n ≤ t.calls.length) (S.get locations) (fun _ t => ¬ StaysInTree height n t)
      (fun e t => (∃ ℓ, e = .idOutOfBound ℓ S.capacity) ∨ ¬ StaysInTree height n t) := by
  obtain ⟨ℓ, hℓ, hout⟩ := hbad
  unfold get
  refine Triple.bind (Q := fun _ t => n ≤ t.calls.length) ?_ fun _ =>
    Triple.bind (Q := fun _ t => ¬ StaysInTree height n t) ?_ fun _ => ?_
  · exact (checkCapacities_triple locations).conseq (fun _ ht => ht) (fun _ _ ht => ht.2) fun _ _ ht => Or.inl ht.1
  · refine Triple.modify fun t ht hstays => hout (hstays (.get locations) ?_ ℓ hℓ)
    rw [List.drop_append_of_le_length ht]
    exact List.mem_append_right _ List.mem_cons_self
  · exact (decoded_keeps (fun _ _ hle => mt fun h => h.of_prefix hle) locations).conseq (fun _ ht => ht) (fun _ _ ht => ht)
      fun _ _ ht => Or.inr ht

end StorageAdapter

/-! ## Entries -/

section Entries

variable {μ : Type} {O : Oram β μ}

theorem mem_pathLocations {leaf : ℕ} {path : List ℕ} {ℓ : ℕ} :
    ℓ ∈ O.pathLocations leaf path ↔ ℓ ∈ path ∨ ∃ level < O.height, O.bucketForLevelLeaf level leaf = ℓ := by
  unfold Oram.pathLocations
  have hfold : ∀ (levels path : List ℕ),
      ℓ ∈ levels.foldl (fun path level => path.insert (O.bucketForLevelLeaf level leaf)) path ↔
      ℓ ∈ path ∨ ∃ level ∈ levels, O.bucketForLevelLeaf level leaf = ℓ := by
    intro levels
    induction levels with
    | nil => simp
    | cons level levels ih =>
      intro path
      rw [List.foldl_cons, ih, List.mem_insert_iff]
      simp only [List.mem_cons, exists_eq_or_imp]
      grind
  simpa using hfold (List.range O.height) path

/-- **An entry that is no leaf.** If the sum with the number of leaves is a 64-bit number, the last bucket of the path is
past the end of the tree; otherwise the sum wraps to less than a leaf, and the first bucket is location 0. -/
theorem entry_strays (hpos : 1 ≤ O.height) (hh : O.height ≤ 31) {entry : ℕ} (h64 : entry < 2 ^ 64)
    (hentry : ¬ entry < 2 ^ (O.height - 1)) :
    ∃ level < O.height, ¬ (1 ≤ O.bucketForLevelLeaf level entry ∧ O.bucketForLevelLeaf level entry < 2 ^ O.height) := by
  have hle : 2 ^ (O.height - 1) ≤ 2 ^ 30 := Nat.pow_le_pow_right (by norm_num) (by omega)
  have hdouble : 2 ^ O.height = 2 * 2 ^ (O.height - 1) := by rw [← pow_succ', Nat.sub_add_cancel hpos]
  have hone : sub64 O.height 1 = O.height - 1 := sub64_of_le hpos (by omega)
  have hbucket : ∀ level < O.height,
      O.bucketForLevelLeaf level entry = (entry + 2 ^ (O.height - 1)) % 2 ^ 64 / 2 ^ (O.height - 1 - level) := by
    intro level hlevel
    have hsub : sub64 (O.height - 1) level = O.height - 1 - level := sub64_of_le (by omega) (by omega)
    rw [Oram.bucketForLevelLeaf, hone, hsub, shlOne_of_le (by omega), Nat.mod_eq_of_lt (by omega : _ < 64)]
  by_cases hwrap : entry + 2 ^ (O.height - 1) < 2 ^ 64
  · refine ⟨O.height - 1, by omega, ?_⟩
    rw [hbucket _ (by omega), Nat.sub_self, pow_zero, Nat.div_one, Nat.mod_eq_of_lt hwrap, hdouble]
    omega
  · refine ⟨0, by omega, ?_⟩
    have hlow : (entry + 2 ^ (O.height - 1)) % 2 ^ 64 < 2 ^ (O.height - 1) := by omega
    rw [hbucket _ (by omega), Nat.sub_zero, Nat.div_eq_of_lt hlow]
    omega

end Entries

/-! ## Calls that stay in the tree -/

/-- one of the two checks of IDs threw: that of the storage or that of the map -/
def Exception.OfId : Exception → Prop
  | .idOutOfBound _ _ => True
  | .blockOutOfBound _ _ => True
  | _ => False

section

variable {S : StorageAdapter β} {mapCapacity stashCapacity height batchSize : ℕ}

/-- the IDs whose entries are leaves from the start on: those of the blocks, and those that find leaves in the array -/
def Proper (height Z : ℕ) (entries : PositionArray mapCapacity) (id : ℕ) : Prop :=
  id < 2 ^ height * Z ∨ ∃ leaf < 2 ^ (height - 1), entries[id]? = some leaf

/-- the calls stay in the tree, the entries of proper IDs are leaves, and the others are what they were -/
def treeGuard (L : LawfulBackend S.backend S.capacity S.blockSize) (height n : ℕ) (entries : PositionArray mapCapacity) :
    Guard β (PositionArray mapCapacity) where
  location ℓ := 1 ≤ ℓ ∧ ℓ < 2 ^ height
  block x := x.1 < mapCapacity
  slot x := x.1 = ulongMax ∨ x.1 < mapCapacity
  request id := id < mapCapacity ∧ Proper height S.Z entries id
  storage t := S.Decodes (fun id => id = ulongMax ∨ id < mapCapacity) (L.raw t.backend) ∧ n ≤ t.calls.length ∧
    StaysInTree height n t
  map m := ∀ id < mapCapacity, (Proper height S.Z entries id → ∃ leaf < 2 ^ (height - 1), m[id]? = some leaf) ∧
    (¬ Proper height S.Z entries id → m[id]? = entries[id]?)
  throws e := ¬ e.OfId
  survives _ := True

variable {L : LawfulBackend S.backend S.capacity S.blockSize} {n : ℕ} {entries : PositionArray mapCapacity}

theorem length_le_of_nodup {locations : List ℕ} {m : ℕ} (hn : locations.Nodup) (h : ∀ ℓ ∈ locations, ℓ < m) :
    locations.length ≤ m := by
  have hsub := hn.subperm fun ℓ hℓ => List.mem_range.2 (h ℓ hℓ)
  simpa using hsub.length_le

/-- a download of buckets of the tree -/
theorem get_inTree (h : Sizes S.toAbsStorageAdapter S.crypto mapCapacity height) (hfault : ∀ e, L.fault e → ¬ e.OfId)
    {locations : List ℕ} (hn : locations.Nodup) (hl : ∀ ℓ ∈ locations, 1 ≤ ℓ ∧ ℓ < 2 ^ height) :
    Triple (treeGuard L height n entries).storage (S.get locations)
      (fun blocks t => ((∀ x ∈ blocks, (treeGuard L height n entries).slot x) ∧ blocks.length = locations.length * S.Z) ∧
        (treeGuard L height n entries).storage t)
      ((treeGuard L height n entries).After (treeGuard L height n entries).storage) := by
  intro w t ht
  obtain ⟨hdecodes, hle, hstays⟩ := ht
  have hcap : ∀ ℓ ∈ locations, ℓ < S.capacity := fun ℓ hℓ => (hl ℓ hℓ).2.trans_le h.capacity_ge
  have hends : S.Ends locations.length := StorageAdapter.ends_of_lt ((length_le_of_nodup hn fun ℓ hℓ => (hl ℓ hℓ).2).trans_lt
    ((Nat.pow_le_pow_right (by norm_num) h.height_le).trans_lt (by norm_num : 2 ^ 31 < 2 ^ 32)))
  choose! g hdec hlen hown using hdecodes
  have hget : Triple (StorageAdapter.RawIs L (L.raw t.backend) t.calls) (S.get locations) _ _ :=
    StorageAdapter.get_decodes (g := g) hcap hends fun ℓ hℓ => hdec ℓ (hcap ℓ hℓ)
  have hafter : ∀ t' : StorageState β, StorageAdapter.RawIs L (L.raw t.backend) (t.calls ++ [.get locations]) t' →
      (treeGuard L height n entries).storage t' := by
    intro t' ht'
    refine ⟨?_, ?_, hstays.append ht'.2 fun call hcall => ?_⟩
    · rw [ht'.1]
      exact fun ℓ hℓ => ⟨g ℓ, hdec ℓ hℓ, hlen ℓ hℓ, hown ℓ hℓ⟩
    · rw [ht'.2, List.length_append]
      omega
    · rw [List.mem_singleton.1 hcall]
      exact hl
  refine (hget.conseq (fun _ ht' => ht') (fun blocks t' ht' => ⟨⟨fun x hx => ?_, ?_⟩, hafter t' ht'.2⟩)
    fun e t' ht' => ⟨hfault e ht'.1, fun _ => hafter t' ht'.2⟩) w t ⟨rfl, rfl⟩
  · rw [ht'.1, List.mem_flatMap] at hx
    obtain ⟨ℓ, hℓ, hx⟩ := hx
    exact hown ℓ (hcap ℓ hℓ) x hx
  · rw [ht'.1, List.length_flatMap, List.map_congr_left fun ℓ hℓ => hlen ℓ (hcap ℓ hℓ)]
    simp

/-- an upload to buckets of the tree. If it is rejected, nothing is recorded. -/
theorem set_inTree (h : Sizes S.toAbsStorageAdapter S.crypto mapCapacity height) (hcap : mapCapacity ≤ 2 ^ 64)
    (hfault : ∀ e, L.fault e → ¬ e.OfId) {requests : List (ℕ × Bucket)}
    (hr : ∀ r ∈ requests, (1 ≤ r.1 ∧ r.1 < 2 ^ height) ∧ ∀ x ∈ r.2, (treeGuard L height n entries).slot x) :
    Triple (treeGuard L height n entries).storage (S.set requests) (fun _ => (treeGuard L height n entries).storage)
      ((treeGuard L height n entries).After (treeGuard L height n entries).storage) := by
  intro w t ht
  obtain ⟨hdecodes, hle, hstays⟩ := ht
  rcases StorageAdapter.encodeRequests_checks (S := S) requests w t with ⟨-, -, -, hpass, -⟩ | ⟨e, w', hexec, hreject⟩
  · have hid : ∀ r ∈ requests, ∀ x ∈ r.2, x.1 < 2 ^ 64 := by
      intro r hm x hx
      rcases (hr r hm).2 x hx with hx | hx
      · rw [hx]
        norm_num [ulongMax]
      · exact hx.trans_le hcap
    have haccepts : ∀ r ∈ requests, S.Accepts r := by
      intro r hm
      have hpass := hpass r hm
      simp only [StorageAdapter.Rejects, not_or, not_exists, not_and, not_lt, not_not, not_le] at hpass
      exact ⟨hpass.1, hpass.2.1, hpass.2.2, hid r hm⟩
    have hafter : ∀ (t' : StorageState β) (writes done : List (ℕ × Bytes)),
        List.Forall₂ (StorageAdapter.Encodes S) requests writes → done.Sublist writes →
        StorageAdapter.RawIs L (writeAll (L.raw t.backend) done) (t.calls ++ [.set writes]) t' →
        (treeGuard L height n entries).storage t' := by
      intro t' writes done henc hd ht'
      refine ⟨?_, ?_, hstays.append ht'.2 fun call hcall ℓ hℓ => ?_⟩
      · rw [ht'.1]
        apply hdecodes.writeAll (fun r hm x hx => (hr r hm).2 x hx)
        intro write hw
        obtain ⟨r, hm, hrw⟩ := exists_of_mem_right henc (hd.subset hw)
        exact ⟨r, hm, (haccepts r hm).length_eq, hrw⟩
      · rw [ht'.2, List.length_append]
        omega
      · rw [List.mem_singleton.1 hcall] at hℓ
        obtain ⟨write, hw, rfl⟩ := List.mem_map.1 hℓ
        obtain ⟨r, hm, hrw⟩ := exists_of_mem_right henc hw
        rw [hrw.1]
        exact (hr r hm).1
    have hset : Triple (StorageAdapter.RawIs L (L.raw t.backend) t.calls) (S.set requests) _ _ :=
      StorageAdapter.set_encodes h.crypto haccepts (L.raw t.backend)
    refine (hset.conseq (fun _ ht' => ht') ?_ ?_) w t ⟨rfl, rfl⟩
    · rintro _ t' ⟨writes, henc, ht'⟩
      exact hafter t' writes writes henc (List.Sublist.refl _) ht'
    · rintro e t' ⟨he, writes, done, henc, hd, ht'⟩
      exact ⟨hfault e he, fun _ => hafter t' writes done henc hd ht'⟩
  · have hset : (S.set requests).exec w t = (.error e, w', t) := Prog.exec_bind_error hexec
    rw [hset]
    refine ⟨?_, fun _ => ⟨hdecodes, hle, hstays⟩⟩
    obtain ⟨r, hm, ⟨hout, -⟩ | ⟨-, rfl⟩ | ⟨b, -, -, rfl⟩⟩ := hreject
    · exact absurd ((hr r hm).1.2.trans_le h.capacity_ge) (not_lt.2 hout)
    · exact id
    · exact id

/-- **Requests for proper IDs keep to the tree.** -/
theorem treeGuard_laws (stashCapacity batchSize : ℕ)
    (h : Sizes S.toAbsStorageAdapter S.crypto mapCapacity height) (hcap : mapCapacity ≤ 2 ^ 64)
    (hfault : ∀ e, L.fault e → ¬ e.OfId) :
    (treeGuard L height n entries).Laws (arrayOram S mapCapacity stashCapacity height batchSize) where
  get locations hn hl := (get_inTree h hfault hn hl).post fun blocks t ht => ⟨⟨ht.1.1, fun i hi => by
    have hi : i / S.Z < locations.length := (Nat.div_lt_iff_lt_mul (Nat.pos_of_ne_zero S.Z_ne_zero)).2 (ht.1.2 ▸ hi)
    change 1 ≤ locations.getD (i / S.Z) 0 ∧ locations.getD (i / S.Z) 0 < 2 ^ height
    rw [List.getD_eq_getElem?_getD, List.getElem?_eq_getElem hi]
    exact hl _ (List.getElem_mem hi)⟩, ht.2⟩
  set requests hr := set_inTree h hcap hfault hr
  position block hblock := by
    intro w m hm
    change Outcome _ _ (Prog.exec ((inMemoryPositionMap mapCapacity).get block) w m)
    rw [exec_arrayGet, if_neg (not_le.2 hblock.1)]
    obtain ⟨leaf, hleaf, hentry⟩ := (hm block hblock.1).1 hblock.2
    refine ⟨fun level hlevel => ?_, hm⟩
    rw [hentry]
    change 1 ≤ Oram.bucketForLevelLeaf _ level leaf ∧ Oram.bucketForLevelLeaf _ level leaf < 2 ^ height
    rw [Oram.bucketForLevelLeaf_eq_node _ h.height_le hlevel hleaf]
    exact mem_path_lt hleaf (mem_path.2 ⟨level, hlevel, rfl⟩)
  entry x hx := by
    intro w m hm
    change Outcome _ _ (Prog.exec ((inMemoryPositionMap mapCapacity).get x.1) w m)
    rw [exec_arrayGet, if_neg (not_le.2 hx)]
    exact hm
  remap block leaf hblock hleaf := by
    intro w m hm
    have hle := h.height_le
    change leaf < shlOne (height - 1) at hleaf
    rw [shlOne_of_le (by omega)] at hleaf
    change Outcome _ _ (Prog.exec ((inMemoryPositionMap mapCapacity).set block leaf) w m)
    rw [exec_arraySet, if_neg (not_le.2 hblock.1)]
    intro id hid
    by_cases he : block = id
    · subst he
      exact ⟨fun _ => ⟨leaf, hleaf, by simp [hid]⟩, fun hproper => absurd hblock.2 hproper⟩
    · rw [Vector.getElem?_setIfInBounds_ne he]
      exact hm id hid
  block_of_slot x hx hid := hx.resolve_left hid
  slot_of_block x hx := Or.inr hx
  dummy x hid _ := Or.inl hid
  padded x hx := hx
  overCapacity _ := id
  tooManyRequests _ _ := id
  diverges := id

/-! ## Calls that leave the tree -/

/-- the calls have left the tree, whatever else holds -/
def strayGuard (β μ : Type) (height n : ℕ) : Guard β μ where
  location _ := True
  block _ := True
  slot _ := True
  request _ := True
  storage t := ¬ StaysInTree height n t
  map _ := True
  throws _ := True
  survives _ := True

/-- whoever has left it stays outside -/
theorem strayGuard_laws {μ : Type} (height n : ℕ) (O : Oram β μ) : (strayGuard β μ height n).Laws O where
  get locations _ _ := (StorageAdapter.get_keeps (fun _ _ hle => mt fun h => h.of_prefix hle) locations).conseq
    (fun _ ht => ht) (fun _ _ ht => ⟨⟨fun _ _ => trivial, fun _ _ => trivial⟩, ht⟩) fun _ _ ht => ⟨trivial, fun _ => ht⟩
  set requests _ := (StorageAdapter.set_keeps (fun _ _ hle => mt fun h => h.of_prefix hle) requests).conseq
    (fun _ ht => ht) (fun _ _ ht => ht) fun _ _ ht => ⟨trivial, fun _ => ht⟩
  position _ _ := (Triple.trivial _ _).conseq (fun _ h => h) (fun _ _ _ => ⟨fun _ _ => trivial, trivial⟩)
    fun _ _ _ => ⟨trivial, fun _ => trivial⟩
  entry _ _ := (Triple.trivial _ _).conseq (fun _ h => h) (fun _ _ h => h) fun _ _ _ => ⟨trivial, fun _ => trivial⟩
  remap _ _ _ _ := (Triple.trivial _ _).conseq (fun _ h => h) (fun _ _ h => h) fun _ _ _ => ⟨trivial, fun _ => trivial⟩
  block_of_slot _ _ _ := trivial
  slot_of_block _ _ := trivial
  dummy _ _ _ := trivial
  padded _ _ := trivial
  overCapacity _ := trivial
  tooManyRequests _ _ := trivial
  diverges := trivial

theorem strayGuard_holds {μ : Type} {s : OramState β μ} :
    (strayGuard β μ height n).Holds s ↔ ¬ StaysInTree height n s.storage :=
  ⟨fun hs => hs.storage, fun hs => ⟨hs, trivial, fun _ _ _ => trivial, fun _ _ => trivial, fun _ _ _ _ _ => trivial⟩⟩

/-- the call threw because of an ID, or left the tree before it threw -/
def Escapes {μ : Type} (height n : ℕ) (e : Exception) (s : OramState β μ) : Prop :=
  e.OfId ∨ ¬ StaysInTree height n s.storage

theorem escapes_of_after {μ : Type} {e : Exception} {s : OramState β μ}
    (hs : (strayGuard β μ height n).After (strayGuard β μ height n).Holds e s) : Escapes height n e s :=
  Or.inr (hs.2 trivial).storage

/-- a location outside the tree is not cached, so it is downloaded -/
theorem getCache_strays {μ : Type} {O : Oram β μ} {locations : List ℕ} (hbad : ∃ ℓ ∈ locations, ¬ (1 ≤ ℓ ∧ ℓ < 2 ^ height))
    (dryRun : Bool) :
    Triple (fun s => (∀ ℓ ∈ s.cache, 1 ≤ ℓ ∧ ℓ < 2 ^ height) ∧ n ≤ s.storage.calls.length) (O.getCache locations dryRun)
      (fun _ => (strayGuard β μ height n).Holds) (Escapes height n) := by
  obtain ⟨ℓ, hℓ, hout⟩ := hbad
  unfold Oram.getCache
  refine Triple.bind (Q := fun a s => ℓ ∉ a.cache ∧ n ≤ s.storage.calls.length)
    (Triple.read fun s hs => ⟨fun hc => hout (hs.1 ℓ hc), hs.2⟩) fun a => Triple.of_pure fun ha => ?_
  apply (iterate_triple locations).bind
  intro order
  apply Triple.of_pure
  intro horder
  have hget : ℓ ∈ order.filter fun location => location ∉ a.cache :=
    List.mem_filter.2 ⟨horder.mem_iff.2 hℓ, by simpa using ha⟩
  refine Triple.ite (fun _ => ?_) fun h => absurd (List.length_pos_of_mem hget) h
  refine Triple.bind (Q := fun _ s => ¬ StaysInTree height n s.storage) ?_ fun downloaded => ?_
  · have hz := Triple.zoom_frame (OramState.storageLens β μ)
      (StorageAdapter.get_strays (S := O.storage) (n := n) ⟨ℓ, hget, hout⟩) (F := fun _ => True) fun _ _ h => h
    refine hz.conseq (fun s hs => ⟨hs, trivial⟩) (fun _ s hs => hs.1) fun e s hs => hs.1.imp_left ?_
    rintro ⟨k, rfl⟩
    trivial
  · exact Triple.bind (Q := fun _ s => ¬ StaysInTree height n s.storage) (Triple.modify fun _ hs => hs) fun _ =>
      Triple.pure fun _ hs => strayGuard_holds.2 hs

/-- the entry of an ID that is accepted and not proper leads out of the tree -/
theorem path_strays (stashCapacity batchSize : ℕ)
    (h : Sizes S.toAbsStorageAdapter S.crypto mapCapacity height) (hentries : ∀ entry ∈ entries, entry < 2 ^ 64)
    {m : PositionArray mapCapacity} (hm : (treeGuard L height n entries).map m) {id : ℕ} (hid : id < mapCapacity)
    (hbad : ¬ Proper height S.Z entries id) :
    ∃ level < height, ¬ (1 ≤ (arrayOram S mapCapacity stashCapacity height batchSize).bucketForLevelLeaf level (m[id]?.getD 0) ∧
      (arrayOram S mapCapacity stashCapacity height batchSize).bucketForLevelLeaf level (m[id]?.getD 0) < 2 ^ height) := by
  rw [(hm id hid).2 hbad, Vector.getElem?_eq_getElem hid]
  refine entry_strays (O := arrayOram S mapCapacity stashCapacity height batchSize) h.height_pos h.height_le
    (hentries _ (Vector.getElem_mem hid)) fun hleaf => ?_
  exact hbad (Or.inr ⟨_, hleaf, Vector.getElem?_eq_getElem hid⟩)

/-- **An access to an ID that is accepted and not proper.** -/
theorem access_strays (h : Sizes S.toAbsStorageAdapter S.crypto mapCapacity height) (hentries : ∀ entry ∈ entries, entry < 2 ^ 64)
    (op : Op) (hid : op.block < mapCapacity) (hbad : ¬ Proper height S.Z entries op.block) (response : Bytes) :
    Triple (treeGuard L height n entries).Holds
      ((arrayOram S mapCapacity stashCapacity height batchSize).access op.read op.block op.data response)
      (fun _ => (strayGuard β (PositionArray mapCapacity) height n).Holds) (Escapes height n) := by
  intro w s hs
  have hlaws := strayGuard_laws height n (arrayOram S mapCapacity stashCapacity height batchSize)
  have hremap := exec_remap (O := arrayOram S mapCapacity stashCapacity height batchSize) rfl op.block w s
  rw [if_neg (not_le.2 hid)] at hremap
  rw [access_eq, Prog.exec_bind_ok hremap]
  obtain ⟨level, hlevel, hout⟩ := path_strays stashCapacity batchSize h hentries hs.map hid hbad
  refine Triple.bind (P := fun s' => (∀ ℓ ∈ s'.cache, 1 ≤ ℓ ∧ ℓ < 2 ^ height) ∧ n ≤ s'.storage.calls.length)
    (Q := fun _ => (strayGuard β (PositionArray mapCapacity) height n).Holds) ?_ (fun _ => ?_) _ _ ⟨hs.keys, hs.storage.2.1⟩
  · unfold Oram.readPath
    rw [if_pos rfl]
    apply (getCache_strays ⟨_, mem_pathLocations.2 (Or.inr ⟨level, hlevel, rfl⟩), hout⟩ false).bind
    intro blocks
    refine Triple.bind (Q := fun _ => (strayGuard β (PositionArray mapCapacity) height n).Holds) ?_ fun _ =>
      Triple.pure fun _ hs => hs
    exact (hlaws.addBlocks fun _ _ => trivial).conseq (fun _ hs => hs) (fun _ _ hs => hs) fun _ _ hs => escapes_of_after hs
  · exact (hlaws.finishAccess (fun _ => trivial) _ fun _ _ => trivial).conseq (fun _ hs => hs) (fun _ _ hs => hs)
      fun _ _ hs => escapes_of_after hs

/-- the paths of a batch are those of the entries of its IDs, and collecting them changes nothing -/
theorem prefetch_collects {requests : List Block} (hids : ∀ r ∈ requests, r.1 < mapCapacity)
    (s₀ : OramState β (PositionArray mapCapacity)) {E : Exception → OramState β (PositionArray mapCapacity) → Prop} :
    Triple (fun s => s = s₀) ((arrayOram S mapCapacity stashCapacity height batchSize).prefetch requests)
      (fun locations s => (∀ r ∈ requests, ∀ level < height,
        (arrayOram S mapCapacity stashCapacity height batchSize).bucketForLevelLeaf level (s₀.map[r.1]?.getD 0) ∈ locations) ∧
          s = s₀) E := by
  refine ((Triple.foldlM (fun rest locations s => (∀ r ∈ requests, r ∈ rest ∨ ∀ level < height,
    (arrayOram S mapCapacity stashCapacity height batchSize).bucketForLevelLeaf level (s₀.map[r.1]?.getD 0) ∈ locations) ∧
      s = s₀) ?_ []).pre fun s hs => ⟨fun r hr => Or.inl hr, hs⟩).post fun locations s hs =>
        ⟨fun r hr => (hs.1 r hr).resolve_left List.not_mem_nil, hs.2⟩
  rintro locations r rest hm w s ⟨hdone, rfl⟩
  have hget : (Oram.onMap ((arrayOram S mapCapacity stashCapacity height batchSize).map.get r.1)).exec w s =
      (.ok (s.map[r.1]?.getD 0), w, s) := by
    change (Oram.onMap ((inMemoryPositionMap mapCapacity).get r.1)).exec w s = _
    rw [Oram.onMap, Prog.exec_zoom, exec_arrayGet, if_neg (not_le.2 (hids r (hm.subset List.mem_cons_self)))]
    rfl
  rw [Prog.exec_bind_ok hget]
  refine ⟨fun r' hr' => ?_, rfl⟩
  rcases hdone r' hr' with hmem | hall
  · rcases List.mem_cons.1 hmem with rfl | hmem
    · exact Or.inr fun level hlevel => mem_pathLocations.2 (Or.inr ⟨level, hlevel, rfl⟩)
    · exact Or.inl hmem
  · exact Or.inr fun level hlevel => mem_pathLocations.2 (Or.inl (hall level hlevel))

/-- **A call on an ID that is accepted and not proper.** -/
theorem exec_strays (h : Sizes S.toAbsStorageAdapter S.crypto mapCapacity height) (hentries : ∀ entry ∈ entries, entry < 2 ^ 64)
    {call : Call} (hscreen : ¬ call.Screened (arrayOram S mapCapacity stashCapacity height batchSize)) {op : Op}
    (hop : op ∈ call.ops) (hbad : ¬ Proper height S.Z entries op.block) :
    Triple (treeGuard L height n entries).Holds ((arrayOram S mapCapacity stashCapacity height batchSize).exec call)
      (fun _ => (strayGuard β (PositionArray mapCapacity) height n).Holds) (Escapes height n) := by
  have hlaws := strayGuard_laws height n (arrayOram S mapCapacity stashCapacity height batchSize)
  have hids : ∀ op ∈ call.ops, op.block < mapCapacity := fun op hop =>
    not_le.1 fun hle => hscreen (Or.inr ⟨op, hop, hle⟩)
  have hsync : Triple (strayGuard β (PositionArray mapCapacity) height n).Holds
      (arrayOram S mapCapacity stashCapacity height batchSize).syncCache
      (fun _ => (strayGuard β (PositionArray mapCapacity) height n).Holds) (Escapes height n) :=
    hlaws.syncCache.conseq (fun _ hs => hs) (fun _ _ hs => hs.2) fun _ _ hs => escapes_of_after hs
  rw [exec_eq]
  refine Triple.bind (Q := fun _ => (strayGuard β (PositionArray mapCapacity) height n).Holds) ?_ fun _ =>
    hsync.bind fun _ => Triple.pure fun _ hs => hs
  cases call with
  | get block =>
    rw [List.mem_singleton.1 hop] at hbad
    exact (access_strays h hentries ⟨true, block, []⟩ (hids _ List.mem_cons_self) hbad []).bind fun _ =>
      Triple.pure fun _ hs => hs
  | put block data =>
    rw [List.mem_singleton.1 hop] at hbad
    exact (access_strays h hentries ⟨false, block, data⟩ (hids _ List.mem_cons_self) hbad []).bind fun _ =>
      Triple.pure fun _ hs => hs
  | multiple requests =>
    -- the path of the ID is downloaded before the accesses
    obtain ⟨r, hr, rfl⟩ := List.mem_map.1 hop
    have hids : ∀ r ∈ requests, r.1 < mapCapacity := fun r hr => hids _ (List.mem_map_of_mem hr)
    have hshort : ¬ batchSize < requests.length := fun hlong => hscreen (Or.inl hlong)
    rw [Oram.accesses]
    apply Triple.ite (fun hlong => absurd hlong hshort)
    intro _
    refine Triple.bind (Q := fun _ => (strayGuard β (PositionArray mapCapacity) height n).Holds) ?_ fun _ => ?_
    · intro w s hs
      obtain ⟨level, hlevel, hout⟩ := path_strays stashCapacity batchSize h hentries hs.map
        (hids r hr) hbad
      refine Triple.bind (prefetch_collects hids s) (fun locations => ?_) w s rfl
      apply Triple.of_pure
      intro hlocations
      refine (getCache_strays ⟨_, hlocations r hr level hlevel, hout⟩ true).pre ?_
      rintro _ rfl
      exact ⟨hs.keys, hs.storage.2.1⟩
    · refine (serve_triple (fun r _ response => ?_) fun _ _ hs => escapes_of_after (hs.after trivial)).post fun _ _ hs => hs.1
      have hallows : (strayGuard β (PositionArray mapCapacity) height n).Allows ⟨r.2.length == 0, r.1, r.2⟩ :=
        ⟨trivial, fun _ => trivial⟩
      exact (hlaws.access hallows response).conseq (fun _ hs => hs) (fun _ _ hs => hs) fun _ _ hs => escapes_of_after hs

/-! ## Runs -/

/-- the calls after the first n name buckets of the tree, and no call that passes the checks of its IDs and of the size of
its batch throws because of an ID -/
def LedToTree (O : Oram β (PositionArray mapCapacity)) (n : ℕ) (calls : List Call)
    (outcomes : List (Except Exception Reply)) (s : OramState β (PositionArray mapCapacity)) : Prop :=
  StaysInTree O.height n s.storage ∧
    ∀ x ∈ calls.zip outcomes, ¬ x.1.Screened O → ∀ e, x.2 = .error e → ¬ e.OfId

/-- the IDs that the map accepts are proper -/
def AcceptsProper (O : Oram β (PositionArray mapCapacity)) (entries : PositionArray mapCapacity) (calls : List Call) : Prop :=
  ∀ call ∈ calls, ¬ call.Screened O → ∀ op ∈ call.ops, Proper O.height O.Z entries op.block

/-- whatever is called after the tree was left -/
theorem attempts_strayed (O : Oram β (PositionArray mapCapacity)) (calls : List Call) (w : World)
    {s : OramState β (PositionArray mapCapacity)} (hs : ¬ StaysInTree height n s.storage) :
    ∃ outcomes w' s', (O.attempts calls).exec w s = (.ok outcomes, w', s') ∧ ¬ StaysInTree height n s'.storage := by
  have hallows : ∀ call ∈ calls, ∀ op ∈ call.ops, (strayGuard β (PositionArray mapCapacity) height n).Allows op :=
    fun _ _ _ _ => ⟨trivial, fun _ => trivial⟩
  have hattempts := (strayGuard_laws height n O).attempts (fun _ => trivial) hallows (E := fun _ _ => False) w s
    (strayGuard_holds.2 hs)
  rcases hr : (O.attempts calls).exec w s with ⟨e | outcomes, w', s'⟩
  · rw [hr] at hattempts
    exact hattempts.elim
  · rw [hr] at hattempts
    exact ⟨outcomes, w', s', rfl, strayGuard_holds.1 hattempts.2⟩

theorem attempts_led_iff (h : Sizes S.toAbsStorageAdapter S.crypto mapCapacity height) (hcap : mapCapacity ≤ 2 ^ 64)
    (hfault : ∀ e, L.fault e → ¬ e.OfId) (hentries : ∀ entry ∈ entries, entry < 2 ^ 64) (calls : List Call) (w : World)
    {s : OramState β (PositionArray mapCapacity)} (hs : (treeGuard L height n entries).Holds s) :
    ∃ outcomes w' s', ((arrayOram S mapCapacity stashCapacity height batchSize).attempts calls).exec w s =
        (.ok outcomes, w', s') ∧
      (LedToTree (arrayOram S mapCapacity stashCapacity height batchSize) n calls outcomes s' ↔
        AcceptsProper (arrayOram S mapCapacity stashCapacity height batchSize) entries calls) := by
  induction calls generalizing w s with
  | nil => exact ⟨[], w, s, rfl, fun _ _ hm => (List.not_mem_nil hm).elim, fun _ => ⟨hs.storage.2.2, by simp⟩⟩
  | cons call calls ih =>
    by_cases hscreen : call.Screened (arrayOram S mapCapacity stashCapacity height batchSize)
    · -- the call changes nothing
      obtain ⟨e, he⟩ := exec_screened rfl hscreen w s
      obtain ⟨outcomes, w', s', hall, hiff⟩ := ih w hs
      refine ⟨_, w', s', exec_attempts_cons he hall, ?_⟩
      have hled : LedToTree (arrayOram S mapCapacity stashCapacity height batchSize) n (call :: calls)
          (.error e :: outcomes) s' ↔ LedToTree (arrayOram S mapCapacity stashCapacity height batchSize) n calls outcomes s' := by
        simp [LedToTree, hscreen]
      rw [hled, hiff]
      simp [AcceptsProper, hscreen]
    · rcases hr : ((arrayOram S mapCapacity stashCapacity height batchSize).exec call).exec w s with ⟨r, w₁, s₁⟩
      by_cases hproper : ∀ op ∈ call.ops, Proper height S.Z entries op.block
      · -- the call stays in the tree
        have hallows : ∀ op ∈ call.ops, (treeGuard L height n entries).Allows op := fun op hop =>
          have hid : op.block < mapCapacity := not_le.1 fun hle => hscreen (Or.inr ⟨op, hop, hle⟩)
          ⟨⟨hid, hproper op hop⟩, fun _ => hid⟩
        have hexec := (treeGuard_laws stashCapacity batchSize h hcap hfault).exec hallows w s hs
        rw [hr] at hexec
        have hfine : (treeGuard L height n entries).Holds s₁ ∧ ∀ e, r = .error e → ¬ e.OfId := by
          cases r with
          | ok reply => exact ⟨hexec.2, fun e he => by cases he⟩
          | error e => exact ⟨hexec.2 trivial, fun e' he => Except.error.inj he ▸ hexec.1⟩
        obtain ⟨outcomes, w', s', hall, hiff⟩ := ih w₁ hfine.1
        refine ⟨_, w', s', exec_attempts_cons hr hall, ?_⟩
        have hled : LedToTree (arrayOram S mapCapacity stashCapacity height batchSize) n (call :: calls) (r :: outcomes) s' ↔
            LedToTree (arrayOram S mapCapacity stashCapacity height batchSize) n calls outcomes s' := by
          simp only [LedToTree, List.zip_cons_cons, List.forall_mem_cons]
          exact ⟨fun hl => ⟨hl.1, hl.2.2⟩, fun hl => ⟨hl.1, fun _ => hfine.2, hl.2⟩⟩
        rw [hled, hiff]
        simp only [AcceptsProper, List.forall_mem_cons]
        exact ⟨fun ha => ⟨fun _ => hproper, ha⟩, fun ha => ha.2⟩
      · -- the call leaves the tree, and the others do not bring it back
        push Not at hproper
        obtain ⟨op, hop, hbad⟩ := hproper
        have hexec := exec_strays h hentries hscreen hop hbad w s hs
        rw [hr] at hexec
        have hnot : ¬ AcceptsProper (arrayOram S mapCapacity stashCapacity height batchSize) entries (call :: calls) :=
          fun ha => hbad (ha call List.mem_cons_self hscreen op hop)
        have hcases : (∃ e, r = .error e ∧ e.OfId) ∨ ¬ StaysInTree height n s₁.storage := by
          cases r with
          | ok reply => exact Or.inr (strayGuard_holds.1 hexec)
          | error e => exact hexec.imp_left fun he => ⟨e, rfl, he⟩
        rcases hcases with ⟨e, rfl, he⟩ | hstrayed
        · obtain ⟨outcomes, hout⟩ := exists_outcomes (arrayOram S mapCapacity stashCapacity height batchSize) calls w₁ s₁
          refine ⟨_, _, _, exec_attempts_cons hr (Prod.ext hout rfl), fun hl => ?_, fun ha => absurd ha hnot⟩
          exact absurd he (hl.2 _ List.mem_cons_self hscreen e rfl)
        · obtain ⟨outcomes, w', s', hall, hstill⟩ := attempts_strayed (arrayOram S mapCapacity stashCapacity height batchSize)
            calls w₁ hstrayed
          exact ⟨_, w', s', exec_attempts_cons hr hall, fun hl => absurd hl.1 hstill, fun ha => absurd ha hnot⟩

end

end PathOram
