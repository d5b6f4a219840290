/-
Bulk load.

The loop of `load` cuts the shuffled records into buckets of Z and spreads the buckets over the tree; each record gets a
leaf below its bucket. `Filled` is the invariant of the loop, `Collected` says what is sent to the storage.

- `leavesForLocation_spec`: the leaves drawn for a location of the tree are those below it.
- `loadLocation_lt`, `loadLocation_strictMono`: at most 2^height - 1 buckets go to different locations of the tree.
- `padLoop_fills`: **the padding loop**, whose bound wraps, ends with a full bucket.
- `load_refines`: **the load**, from a view to the next, when every location is one of the storage.
- `load_rejects`: it throws when a location is not.
-/
import PathOram.InMemory

namespace PathOram

open Lib

variable {β μ : Type} {O : Oram β μ}

/-! ## Locations and leaves -/

/-- the number of buckets that the data fill -/
def Oram.bucketCount (O : Oram β μ) (data : List Block) : ℕ := (data.length + O.Z - 1) / O.Z

section Locations

variable {bucketCount i j : ℕ}

theorem loadLocation_eq (hh : O.height ≤ 30) (bucketCount i : ℕ) :
    O.loadLocation bucketCount i = 1 + i * 2 ^ O.height / bucketCount := by
  rw [Oram.loadLocation, shlOne_of_le hh]

theorem loadLocation_strictMono (hh : O.height ≤ 30) (hc : bucketCount ≤ 2 ^ O.height) (hpos : 0 < bucketCount)
    (hij : i < j) : O.loadLocation bucketCount i < O.loadLocation bucketCount j := by
  have hstep : i * 2 ^ O.height / bucketCount + 1 ≤ j * 2 ^ O.height / bucketCount := by
    calc i * 2 ^ O.height / bucketCount + 1 = (i * 2 ^ O.height + bucketCount) / bucketCount := (Nat.add_div_right _ hpos).symm
      _ ≤ ((i + 1) * 2 ^ O.height) / bucketCount := Nat.div_le_div_right (by rw [Nat.succ_mul]; omega)
      _ ≤ j * 2 ^ O.height / bucketCount := Nat.div_le_div_right (Nat.mul_le_mul_right _ hij)
  rw [loadLocation_eq hh, loadLocation_eq hh]
  omega

/-- with fewer buckets than the tree has numbers, every location is a node -/
theorem loadLocation_lt (hh : O.height ≤ 30) (hc : bucketCount < 2 ^ O.height) (hi : i < bucketCount) :
    O.loadLocation bucketCount i < 2 ^ O.height := by
  have hlast : i * 2 ^ O.height / bucketCount < 2 ^ O.height - 1 := by
    rw [Nat.div_lt_iff_lt_mul (by omega)]
    have h1 : i * 2 ^ O.height ≤ (bucketCount - 1) * 2 ^ O.height := Nat.mul_le_mul_right _ (by omega)
    have h2 : (bucketCount - 1) * 2 ^ O.height < (2 ^ O.height - 1) * bucketCount := by
      obtain ⟨m, hm⟩ := Nat.exists_eq_add_of_lt hc
      obtain ⟨n, rfl⟩ := Nat.exists_eq_succ_of_ne_zero (show bucketCount ≠ 0 by omega)
      rw [hm]
      simp only [Nat.succ_eq_add_one, Nat.add_sub_cancel]
      nlinarith
    omega
  rw [loadLocation_eq hh]
  omega

theorem loadLocation_le (hh : O.height ≤ 30) (hc : bucketCount ≤ 2 ^ O.height) (hi : i < bucketCount) :
    O.loadLocation bucketCount i ≤ 2 ^ O.height := by
  rcases Nat.lt_or_eq_of_le hc with hlt | rfl
  · exact (loadLocation_lt hh hlt hi).le
  · rw [loadLocation_eq hh, Nat.mul_div_cancel _ (Nat.two_pow_pos _)]
    omega

/-- as many buckets as the tree has numbers: the last one is past its end -/
theorem loadLocation_last (hh : O.height ≤ 30) : O.loadLocation (2 ^ O.height) (2 ^ O.height - 1) = 2 ^ O.height := by
  have hpos := Nat.two_pow_pos O.height
  rw [loadLocation_eq hh, Nat.mul_div_cancel _ hpos]
  omega

/-- the first leaf below a node, and how many there are -/
theorem leavesForLocation_eq (hh : O.height ≤ 31) {location : ℕ} (hpos : location ≠ 0) (hlt : location < 2 ^ O.height) :
    (O.leavesForLocation location).1 = location * 2 ^ (O.height - 1 - location.log2) - 2 ^ (O.height - 1) ∧
      (sub64 (O.leavesForLocation location).2 (O.leavesForLocation location).1 + 1) % 2 ^ 64 =
        2 ^ (O.height - 1 - location.log2) := by
  have hlevel : location.log2 < O.height := (Nat.log2_lt hpos).2 hlt
  have hsub : sub64 (sub64 O.height location.log2) 1 = O.height - 1 - location.log2 := by
    rw [sub64_of_le hlevel.le (by omega), sub64_of_le (by omega) (by omega)]
    omega
  have hsize : 2 ^ (O.height - 1) ≤ 2 ^ 30 := Nat.pow_le_pow_right (by norm_num) (by omega)
  obtain ⟨hstart, hend⟩ := below_bounds hpos hlt
  have hwidth := Nat.two_pow_pos (O.height - 1 - location.log2)
  simp only [Oram.leavesForLocation, hsub]
  rw [shlOne_of_le (show O.height - 1 - location.log2 ≤ 30 by omega), shlOne_of_le (show O.height - 1 ≤ 30 by omega),
    Nat.succ_mul]
  generalize location * 2 ^ (O.height - 1 - location.log2) = first at *
  generalize 2 ^ (O.height - 1 - location.log2) = width at *
  generalize 2 ^ (O.height - 1) = leaves at *
  have h1 : sub64 (first % 2 ^ 64) leaves = first - leaves := by unfold sub64; omega
  have h2 : sub64 (sub64 ((first + width) % 2 ^ 64) 1) leaves = first + width - 1 - leaves := by unfold sub64; omega
  rw [h1, h2]
  refine ⟨rfl, ?_⟩
  unfold sub64
  omega

/-- a leaf that fits a location: if this is a node of the tree, the leaf is below it -/
def Oram.Assigned (O : Oram β μ) (location leaf : ℕ) : Prop :=
  location < 2 ^ O.height → leaf < 2 ^ (O.height - 1) ∧ location ∈ path O.height leaf

/-- **The leaves drawn for a location are those below it.** -/
theorem leavesForLocation_spec (hh : O.height ≤ 31) {location n : ℕ} (hpos : location ≠ 0)
    (hn : location < 2 ^ O.height →
      n < (sub64 (O.leavesForLocation location).2 (O.leavesForLocation location).1 + 1) % 2 ^ 64) :
    O.Assigned location ((n + (O.leavesForLocation location).1) % 2 ^ 64) := by
  intro hlt
  obtain ⟨hfirst, hwidth⟩ := leavesForLocation_eq hh hpos hlt
  have hn := hn hlt
  rw [hwidth] at hn
  have hsize : 2 ^ (O.height - 1) ≤ 2 ^ 30 := Nat.pow_le_pow_right (by norm_num) (by omega)
  obtain ⟨hstart, hend⟩ := below_bounds hpos hlt
  rw [hfirst, Nat.mod_eq_of_lt (by omega)]
  exact mem_path_of_below hpos hlt (by omega) (by omega)

end Locations

/-! ## Padding -/

/-- the loop with some fuel: its bound wraps while the bucket is not full -/
theorem padLoop_eq (hZ : O.Z < 2 ^ 64) (fuel i : ℕ) (bucket : Bucket) (hlen : bucket.length ≤ O.Z)
    (hi : i + (O.Z - bucket.length) < 2 ^ 64) :
    O.padLoop fuel i bucket = if O.Z - bucket.length < fuel then
      some (bucket ++ List.replicate (O.Z - bucket.length) (ulongMax, [])) else none := by
  induction fuel generalizing i bucket with
  | zero =>
    rw [if_neg (Nat.not_lt_zero _)]
    rfl
  | succ fuel ih =>
    rw [Oram.padLoop]
    rcases Nat.lt_or_eq_of_le hlen with hlt | heq
    · have hbound : i < sub64 bucket.length O.Z := by unfold sub64; omega
      have hnext : (i + 1) % 2 ^ 32 ≤ i + 1 := Nat.mod_le _ _
      have hrest : O.Z - bucket.length = (O.Z - (bucket.length + 1)) + 1 := by omega
      rw [if_pos hbound, ih _ _ (by simpa using hlt) (by simp; omega), hrest, List.replicate_succ]
      simp
    · have hbound : ¬ i < sub64 bucket.length O.Z := by unfold sub64; omega
      rw [if_neg hbound, heq, Nat.sub_self, if_pos (Nat.succ_pos _)]
      simp

/-- a bucket of Z blocks passes the storage's check for this, whatever the others find -/
theorem encodeRequest_length {S : StorageAdapter β} {r : ℕ × Bucket} (h : r.2.length = S.Z) :
    ThrowsOnly (fun e => ∀ Z given, e ≠ .notZBlocks Z given) (S.encodeRequest r) := by
  unfold StorageAdapter.encodeRequest
  apply ThrowsOnly.bind (Triple.ite (fun _ => ThrowsOnly.throw (by simp)) fun _ => ThrowsOnly.pure _)
  intro _
  apply Triple.ite (fun hne => absurd h hne)
  intro _
  refine (ThrowsOnly.mapM fun b _ => ?_).bind fun records => ?_
  · exact ThrowsOnly.bind (Triple.ite (fun _ => ThrowsOnly.throw (by simp)) fun _ => ThrowsOnly.pure _) fun _ =>
      ThrowsOnly.pure _
  · apply ThrowsOnly.bind ((ThrowsOnly.world _).bind fun _ => ThrowsOnly.pure _)
    intro iv
    refine (ThrowsOnly.ofExcept fun e he => ?_).bind fun _ => ThrowsOnly.pure _
    rcases encrypt_error he with ⟨-, rfl⟩ | ⟨-, rfl⟩ | ⟨-, rfl⟩ <;> simp

/-- **The padding loop ends with a full bucket.** Of the tests of its bound, one more than there are free slots, the last
one fails: with less fuel than that it is still running, with that or more it returns the records in front, in their
order, and dummies behind. The storage does not find fault with the length of this bucket. -/
theorem padLoop_fills (hZ : O.Z < 2 ^ 32) {bucket : Bucket} (hlt : bucket.length < O.Z) :
    (∀ fuel, O.padLoop fuel 0 bucket = if O.Z - bucket.length + 1 ≤ fuel then
      some (bucket ++ List.replicate (O.Z - bucket.length) (ulongMax, [])) else none) ∧
    ∀ fuel full, O.padLoop fuel 0 bucket = some full → full.length = O.Z ∧
      ∀ S : StorageAdapter β, S.Z = O.Z → ∀ location,
        ThrowsOnly (fun e => ∀ Z given, e ≠ .notZBlocks Z given) (S.encodeRequest (location, full)) := by
  have hloop : ∀ fuel, O.padLoop fuel 0 bucket = if O.Z - bucket.length + 1 ≤ fuel then
      some (bucket ++ List.replicate (O.Z - bucket.length) (ulongMax, [])) else none :=
    fun fuel => padLoop_eq (hZ.trans (by norm_num)) fuel 0 bucket hlt.le (by omega)
  refine ⟨hloop, fun fuel full hfull => ?_⟩
  have hlength : full.length = O.Z := by
    rw [hloop] at hfull
    split_ifs at hfull
    rw [← Option.some.inj hfull, List.length_append, List.length_replicate]
    omega
  exact ⟨hlength, fun S hS location => encodeRequest_length (by rw [hlength, hS])⟩

theorem padLoop_fills_tiny :
    (inMemoryOram ⟨List.replicate 32 0, 3, 0, 2, 32, rfl, by decide, by decide, by decide⟩ plainCrypto 6 6 1 4).padLoop 3 0
      [(5, [1])] = some [(5, [1]), (ulongMax, []), (ulongMax, [])] :=
  (padLoop_fills (O := inMemoryOram ⟨List.replicate 32 0, 3, 0, 2, 32, rfl, by decide, by decide, by decide⟩ plainCrypto
    6 6 1 4) (by decide) (show ([(5, [1])] : Bucket).length < 3 by decide)).1 3

namespace LawfulOram

variable {L : LawfulOram O} {v : View}

/-! ## The loop -/

/-- records that may be loaded -/
structure Loadable (O : Oram β μ) (data : List Block) : Prop where
  nodup : (data.map Prod.fst).Nodup
  id_lt : ∀ b ∈ data, b.1 < 2 ^ O.height * O.Z
  data_le : ∀ b ∈ data, b.2.length ≤ O.storage.userBlockSize

theorem Loadable.length_le {data : List Block} (h : Loadable O data) : data.length ≤ 2 ^ O.height * O.Z := by
  have hsub : (data.map Prod.fst).Subperm (List.range (2 ^ O.height * O.Z)) := by
    apply h.nodup.subperm
    intro id hid
    obtain ⟨b, hb, rfl⟩ := List.mem_map.1 hid
    exact List.mem_range.2 (h.id_lt b hb)
  simpa using hsub.length_le

theorem Loadable.bucketCount_le (hZ : 0 < O.Z) {data : List Block} (h : Loadable O data) :
    O.bucketCount data ≤ 2 ^ O.height := by
  have hlen := h.length_le
  rw [Oram.bucketCount, Nat.div_le_iff_le_mul_add_pred hZ, Nat.mul_comm]
  omega

theorem Loadable.perm {data order : List Block} (h : Loadable O data) (hp : order.Perm data) : Loadable O order :=
  ⟨((hp.map Prod.fst).nodup_iff).2 h.nodup, fun b hb => h.id_lt b (hp.subset hb), fun b hb => h.data_le b (hp.subset hb)⟩

/-- the buckets of a state of the loop, the one that is being filled included -/
def requestsSoFar (O : Oram β μ) (count : ℕ) (l : Oram.Loading) : List (ℕ × Bucket) :=
  l.writeRequests ++ [(O.loadLocation count l.iteration, l.bucket)]

/-- the state of the loop after some records -/
structure Filled (O : Oram β μ) (count : ℕ) (v : View) (done : List Block) (l : Oram.Loading) (v' : View) : Prop where
  records : (requestsSoFar O count l).flatMap Prod.snd = done
  locations : l.writeRequests.map Prod.fst = (List.range l.iteration).map (O.loadLocation count)
  full : ∀ r ∈ l.writeRequests, r.2.length = O.Z
  bucket_lt : l.bucket.length < O.Z
  length : done.length = l.iteration * O.Z + l.bucket.length
  assigned : ∀ r ∈ requestsSoFar O count l, ∀ b ∈ r.2, O.Assigned r.1 (v'.pos b.1)
  others : ∀ i, i ∉ done.map Prod.fst → v'.pos i = v.pos i
  frame : v' = { v with pos := v'.pos, mapCalls := v'.mapCalls }

theorem filled_start (L : LawfulOram O) (count : ℕ) (v : View) : Filled O count v [] ⟨0, [], []⟩ v where
  records := rfl
  locations := rfl
  full := by simp
  bucket_lt := L.Z_pos
  length := by simp
  assigned := by simp [requestsSoFar]
  others _ _ := rfl
  frame := rfl

/-- one record: it is put into the bucket, and mapped below its location -/
theorem filled_step (L : LawfulOram O) {count : ℕ} {done : List Block} {l : Oram.Loading} {v₁ : View}
    (h : Filled O count v done l v₁) {record : Block} (hnew : record.1 ∉ done.map Prod.fst) {leaf : ℕ}
    (hleaf : O.Assigned (O.loadLocation count l.iteration) leaf) {l' : Oram.Loading}
    (hl : l' = if (l.bucket ++ [record]).length = O.Z then
        ⟨l.iteration + 1, [], l.writeRequests ++ [(O.loadLocation count l.iteration, l.bucket ++ [record])]⟩
      else ⟨l.iteration, l.bucket ++ [record], l.writeRequests⟩) (calls : List MapCall) :
    Filled O count v (done ++ [record]) l'
      { v₁ with pos := Function.update v₁.pos record.1 leaf, mapCalls := calls } := by
  -- whether or not the bucket is full, the record is the only new one
  have hblocks : ∀ r ∈ requestsSoFar O count l', ∀ b ∈ r.2,
      b = record ∧ r.1 = O.loadLocation count l.iteration ∨ ∃ r' ∈ requestsSoFar O count l, r'.1 = r.1 ∧ b ∈ r'.2 := by
    intro r hr b hb
    rw [hl, requestsSoFar] at hr
    have hlast : ∀ b ∈ l.bucket ++ [record], b = record ∨ b ∈ l.bucket := fun b hb => by
      rcases List.mem_append.1 hb with hb | hb
      · exact Or.inr hb
      · exact Or.inl (List.mem_singleton.1 hb)
    have hold : ∀ r, r ∈ l.writeRequests → r ∈ requestsSoFar O count l := fun r hr => List.mem_append_left _ hr
    split_ifs at hr
    · simp only [List.append_assoc, List.mem_append, List.mem_singleton] at hr
      rcases hr with hr | rfl | rfl
      · exact Or.inr ⟨r, hold r hr, rfl, hb⟩
      · exact (hlast b hb).imp (fun hb => ⟨hb, rfl⟩) fun hb => ⟨_, List.mem_append_right _ (List.mem_singleton_self _), rfl, hb⟩
      · simp at hb
    · simp only [List.mem_append, List.mem_singleton] at hr
      rcases hr with hr | rfl
      · exact Or.inr ⟨r, hold r hr, rfl, hb⟩
      · exact (hlast b hb).imp (fun hb => ⟨hb, rfl⟩) fun hb => ⟨_, List.mem_append_right _ (List.mem_singleton_self _), rfl, hb⟩
  have hdone : ∀ r ∈ requestsSoFar O count l, ∀ b ∈ r.2, b.1 ∈ done.map Prod.fst := fun r hr b hb => by
    rw [← h.records]
    exact List.mem_map_of_mem (List.mem_flatMap.2 ⟨r, hr, hb⟩)
  have hlt := h.bucket_lt
  have hlength := h.length
  refine ⟨?_, ?_, ?_, ?_, ?_, fun r hr b hb => ?_, fun i hi => ?_, ?_⟩
  · rw [← h.records, hl]
    split_ifs <;> simp [requestsSoFar]
  · rw [hl]
    split_ifs
    · simp [h.locations, List.range_succ]
    · exact h.locations
  · rw [hl]
    intro r hr
    split_ifs at hr with hfull
    · rcases List.mem_append.1 hr with hr | hr
      · exact h.full r hr
      · rw [List.mem_singleton.1 hr]
        exact hfull
    · exact h.full r hr
  · rw [hl]
    split_ifs with hfull
    · exact L.Z_pos
    · simp at hfull ⊢
      omega
  · rw [hl]
    split_ifs with hfull
    · simp [Nat.succ_mul] at hfull ⊢
      omega
    · simp
      omega
  · change O.Assigned r.1 (Function.update v₁.pos record.1 leaf b.1)
    rcases hblocks r hr b hb with ⟨rfl, hloc⟩ | ⟨r', hr', hloc, hb'⟩
    · rw [Function.update_self, hloc]
      exact hleaf
    · have hne : b.1 ≠ record.1 := fun he => hnew (he ▸ hdone r' hr' b hb')
      rw [Function.update_of_ne hne, ← hloc]
      exact h.assigned r' hr' b hb'
  · simp only [List.map_append, List.mem_append, not_or, List.map_cons, List.map_nil, List.mem_singleton] at hi
    change Function.update v₁.pos record.1 leaf i = v.pos i
    rw [Function.update_of_ne hi.2]
    exact h.others i hi.1
  · rw [h.frame]

theorem loadRecord_refines (L : LawfulOram O) {F : Exception → View → Prop} {count : ℕ} {done : List Block}
    {l : Oram.Loading} {v₁ : View} (h : Filled O count v done l v₁) {record : Block} (hid : record.1 < 2 ^ O.height * O.Z)
    (hnew : record.1 ∉ done.map Prod.fst) :
    Refines L.Sees v₁ (O.loadRecord count l record) (fun l' v' => Filled O count v (done ++ [record]) l' v') (L.Fails F) := by
  have hpos : O.loadLocation count l.iteration ≠ 0 := by simp [Oram.loadLocation]
  unfold Oram.loadRecord
  have hdraw : Triple (L.Sees v₁) (getRandomULong
      ((sub64 (O.leavesForLocation (O.loadLocation count l.iteration)).2
        (O.leavesForLocation (O.loadLocation count l.iteration)).1 + 1) % 2 ^ 64) : Run (OramState β μ) ℕ)
      (fun n s => (O.loadLocation count l.iteration < 2 ^ O.height →
        n < (sub64 (O.leavesForLocation (O.loadLocation count l.iteration)).2
          (O.leavesForLocation (O.loadLocation count l.iteration)).1 + 1) % 2 ^ 64) ∧ L.Sees v₁ s) (L.Fails F) := by
    refine randBytes_triple.bind fun material => Triple.pure fun s hs => ⟨fun hlt => Nat.mod_lt _ ?_, hs⟩
    rw [(leavesForLocation_eq L.height_le hpos hlt).2]
    exact Nat.two_pow_pos _
  refine Refines.bind (world_refines hdraw) fun n v₂ ⟨hn, hv₂⟩ => ?_
  subst v₂
  have hleaf := leavesForLocation_spec L.height_le hpos hn
  apply Refines.bind (map_set_refines hid (Nat.mod_lt _ (by norm_num)))
  intro _ v₂ hv₂
  subst hv₂
  have hbucket : (if l.bucket.length < O.Z then l.bucket ++ [record] else l.bucket) = l.bucket ++ [record] := if_pos h.bucket_lt
  dsimp only
  rw [hbucket]
  refine Triple.ite (fun hfull => Refines.pure ?_) fun hfull => Refines.pure ?_
  · exact filled_step L h hnew hleaf (by rw [if_pos hfull]) _
  · exact filled_step L h hnew hleaf (by rw [if_neg hfull]) _

/-! ## The whole load -/

/-- what is sent to the storage for records in some order, and the positions they are given -/
structure Collected (O : Oram β μ) (data : List Block) (v : View) (order : List Block) (requests : List (ℕ × Bucket))
    (v' : View) : Prop where
  perm : order.Perm data
  /-- the last bucket is filled up with dummies -/
  records : ∃ k < O.Z, requests.flatMap Prod.snd = order ++ List.replicate k (ulongMax, [])
  locations : requests.map Prod.fst = (List.range (O.bucketCount data)).map (O.loadLocation (O.bucketCount data))
  full : ∀ r ∈ requests, r.2.length = O.Z
  assigned : ∀ r ∈ requests, ∀ b ∈ r.2, b.1 ≠ ulongMax → O.Assigned r.1 (v'.pos b.1)
  others : ∀ i, i ∉ data.map Prod.fst → v'.pos i = v.pos i
  frame : v' = { v with pos := v'.pos, mapCalls := v'.mapCalls }

/-- the loop and the padding of the last bucket -/
theorem collected_of_filled (L : LawfulOram O) {data order : List Block} (hp : order.Perm data) {l : Oram.Loading}
    {v v' : View} (h : Filled O (O.bucketCount data) v order l v') :
    Collected O data v order (l.writeRequests ++ if l.bucket = [] then [] else
      [(O.loadLocation (O.bucketCount data) l.iteration,
        l.bucket ++ List.replicate (O.Z - l.bucket.length) (ulongMax, []))]) v' := by
  have hlt := h.bucket_lt
  have hcount : O.bucketCount data = (l.iteration * O.Z + l.bucket.length + O.Z - 1) / O.Z := by
    rw [Oram.bucketCount, ← hp.length_eq, h.length]
  have hothers : ∀ i, i ∉ data.map Prod.fst → v'.pos i = v.pos i := fun i hi =>
    h.others i fun hi' => hi ((hp.map Prod.fst).subset hi')
  have hold : ∀ r, r ∈ l.writeRequests → r ∈ requestsSoFar O (O.bucketCount data) l := fun r hr => List.mem_append_left _ hr
  have hrecords := h.records
  rw [requestsSoFar, List.flatMap_append] at hrecords
  split_ifs with hnil
  · have hdiv : O.bucketCount data = l.iteration := by
      rw [hcount, hnil]
      exact Nat.div_eq_of_lt_le (by simp; omega) (by simp [Nat.succ_mul]; omega)
    rw [List.append_nil]
    refine ⟨hp, ⟨0, L.Z_pos, ?_⟩, by rw [h.locations, hdiv], h.full, fun r hr b hb _ => h.assigned r (hold r hr) b hb,
      hothers, h.frame⟩
    rw [← hrecords, hnil]
    simp
  · have hpos : 0 < l.bucket.length := List.length_pos_iff.2 hnil
    have hdiv : O.bucketCount data = l.iteration + 1 := by
      rw [hcount]
      exact Nat.div_eq_of_lt_le (by rw [Nat.succ_mul]; omega) (by rw [Nat.succ_mul, Nat.succ_mul]; omega)
    refine ⟨hp, ⟨O.Z - l.bucket.length, by omega, ?_⟩, ?_, fun r hr => ?_, fun r hr b hb hne => ?_, hothers, h.frame⟩
    · rw [← hrecords]
      simp
    · rw [List.map_append, h.locations, hdiv, List.range_succ, List.map_append]
      rfl
    · rcases List.mem_append.1 hr with hr | hr
      · exact h.full r hr
      · rw [List.mem_singleton.1 hr, List.length_append, List.length_replicate]
        omega
    · rcases List.mem_append.1 hr with hr | hr
      · exact h.assigned r (hold r hr) b hb
      · rw [List.mem_singleton.1 hr] at hb ⊢
        rcases List.mem_append.1 hb with hb | hb
        · exact h.assigned _ (List.mem_append_right _ (List.mem_singleton_self _)) b hb
        · exact absurd (by rw [List.eq_of_mem_replicate hb]) hne

/-- the load up to the storage's `set` -/
theorem load_collected (L : LawfulOram O) (hh : O.height ≤ 30) {data : List Block} (hd : Loadable O data)
    {Q : List Block → View → Prop} {E : Exception → OramState β μ → Prop}
    (hE : ∀ e s, L.Fails (fun _ _ => False) e s → E e s)
    (hset : ∀ order requests v', Collected O data v order requests v' →
      Refines L.Sees v' (Oram.onStorage (O.storage.set requests)) (fun _ => Q order) E) :
    Refines L.Sees v (O.load data) Q E := by
  have hcount := hd.bucketCount_le L.Z_pos
  have hZ : O.Z < 2 ^ 64 := (Nat.le_mul_of_pos_left _ (Nat.two_pow_pos _)).trans_lt L.blocks_lt
  unfold Oram.load
  refine Triple.ite (fun h => ?_) fun _ => ?_
  · rw [shlOne_of_le hh] at h
    exact absurd hcount (not_le.2 h)
  refine Refines.bind (Refines.conseq (world_refines (Q := fun order => order.Perm data) (L := L)
    (F := fun _ _ => False) (shuffle_triple data)) (fun _ _ h => h) hE) fun order v₁ ⟨hp, hv₁⟩ => ?_
  subst v₁
  have hloadable := hd.perm hp
  have hloop : Refines L.Sees v (order.foldlM (O.loadRecord (O.bucketCount data)) ⟨0, [], []⟩)
      (fun l v' => Filled O (O.bucketCount data) v order l v') (L.Fails fun _ _ => False) := by
    refine (Refines.foldlM (fun rest l v' => ∃ done, done ++ rest = order ∧ Filled O (O.bucketCount data) v done l v')
      ?_ _ ⟨[], rfl, filled_start L _ v⟩).post ?_
    · rintro l record rest v₁ hm ⟨done, hdone, hfilled⟩
      have hnodup := hloadable.nodup
      rw [← hdone, List.map_append, List.nodup_append'] at hnodup
      have hnew : record.1 ∉ done.map Prod.fst := fun h => hnodup.2.2 h List.mem_cons_self
      apply (loadRecord_refines L hfilled (hloadable.id_lt record (hm.subset List.mem_cons_self)) hnew).post
      intro l' v' h
      exact ⟨done ++ [record], by rw [List.append_assoc]; exact hdone, h⟩
    · rintro l v' ⟨done, hdone, h⟩
      rw [List.append_nil] at hdone
      exact hdone ▸ h
  apply Refines.bind (hloop.conseq (fun _ _ h => h) hE)
  intro l v₁ hl
  have hcollected := collected_of_filled L hp hl
  by_cases hnil : l.bucket = []
  · have hempty : ¬ 0 < l.bucket.length := by simp [hnil]
    rw [if_neg hempty]
    rw [if_pos hnil, List.append_nil] at hcollected
    exact (hset order _ v₁ hcollected).bind fun _ v₂ hQ => Refines.pure hQ
  · have hpad := padLoop_eq hZ (O.Z + 1) 0 l.bucket hl.bucket_lt.le (by omega)
    rw [if_pos (show O.Z - l.bucket.length < O.Z + 1 by omega)] at hpad
    rw [if_pos (List.length_pos_iff.2 hnil), hpad]
    rw [if_neg hnil] at hcollected
    exact (hset order _ v₁ hcollected).bind fun _ v₂ hQ => Refines.pure hQ

/-- buckets that are not cached are replaced in the storage -/
theorem storageSet_refines {requests : List (ℕ × Bucket)} (hr : ∀ r ∈ requests, O.storage.Accepts r)
    (hc : ∀ ℓ, v.cached ℓ = false) :
    Refines L.Sees v (Oram.onStorage (O.storage.set requests))
      (fun _ v' => ∃ call, StorageAdapter.IsSetOf O.storage requests call ∧
        v' = { v with tree := writeAll v.tree (O.storage.storedRequests requests), calls := v.calls ++ [call] })
      (L.Fails fun e _ => L.storage.fault e) := by
  intro w s hs
  obtain ⟨store, hstore, htree⟩ := hs.tree
  have hempty : ∀ (f : ℕ → Bucket), (fun ℓ => (s.cache.lookup ℓ).getD (f ℓ)) = f := fun f => by
    funext ℓ
    have hn : ℓ ∉ s.cache := by
      have := hc ℓ
      rw [hs.cached] at this
      exact of_decide_eq_false this
    rw [AList.lookup_eq_none.2 hn]
    rfl
  rw [hempty] at htree
  have hset : Triple (StorageAdapter.Holds L.storage store v.calls) (O.storage.set requests) _ _ :=
    StorageAdapter.set_triple L.crypto hr
  refine ((Triple.zoom (OramState.storageLens β μ) hset s).conseq (fun s' h => ⟨h, h ▸ hstore⟩) ?_ ?_) w s rfl
  · rintro _ s' ⟨t, rfl, call, hcall, ht⟩
    refine ⟨_, ⟨call, hcall, rfl⟩, hs.map, hs.stash, ⟨_, ht, ?_⟩, hs.cached⟩
    change writeAll v.tree _ = fun ℓ => (s.cache.lookup ℓ).getD _
    rw [hempty, htree]
  · rintro e s' ⟨t, rfl, hf, done, call, -, -, ht⟩
    refine Or.inr ⟨{ v with tree := writeAll store (O.storage.storedRequests done), calls := v.calls ++ [call] }, hf,
      hs.map, hs.stash, ⟨_, ht, ?_⟩, hs.cached⟩
    change _ = fun ℓ => (s.cache.lookup ℓ).getD _
    rw [hempty]

/-- what is collected passes the checks of the storage if its locations do -/
theorem Collected.accepts (L : LawfulOram O) {data order : List Block} (hd : Loadable O data) {requests : List (ℕ × Bucket)}
    {v' : View} (h : Collected O data v order requests v') (hlt : ∀ r ∈ requests, r.1 < O.storage.capacity) :
    ∀ r ∈ requests, O.storage.Accepts r := by
  obtain ⟨k, -, hrecords⟩ := h.records
  have hblock : ∀ r ∈ requests, ∀ b ∈ r.2, b ∈ data ∨ b = (ulongMax, []) := fun r hr b hb => by
    have hm : b ∈ order ++ List.replicate k (ulongMax, []) := hrecords ▸ List.mem_flatMap.2 ⟨r, hr, hb⟩
    exact (List.mem_append.1 hm).imp (fun hb => h.perm.subset hb) List.eq_of_mem_replicate
  refine fun r hr => ⟨hlt r hr, by rw [h.full r hr, L.Z_eq], fun b hb => ?_, fun b hb => ?_⟩
  · rcases hblock r hr b hb with hb | rfl
    · exact hd.data_le b hb
    · exact Nat.zero_le _
  · rcases hblock r hr b hb with hb | rfl
    · exact (hd.id_lt b hb).trans L.blocks_lt
    · norm_num [ulongMax]

/-- the load is a step -/
def Loaded (O : Oram β μ) (data : List Block) (v : View) (order : List Block) (v' : View) : Prop :=
  ∃ requests call v₁, Collected O data v order requests v₁ ∧ StorageAdapter.IsSetOf O.storage requests call ∧
    v' = { v₁ with tree := writeAll v.tree (O.storage.storedRequests requests), calls := v.calls ++ [call] }

theorem Collected.locations_lt {data order : List Block} {requests : List (ℕ × Bucket)} {v' : View}
    (h : Collected O data v order requests v') {n : ℕ}
    (hn : ∀ i < O.bucketCount data, O.loadLocation (O.bucketCount data) i < n) : ∀ r ∈ requests, r.1 < n := by
  intro r hr
  have hm : r.1 ∈ requests.map Prod.fst := List.mem_map_of_mem hr
  rw [h.locations] at hm
  obtain ⟨i, hi, he⟩ := List.mem_map.1 hm
  exact he ▸ hn i (List.mem_range.1 hi)

/-- **`load`**, when every location is one of the storage. -/
theorem load_refines (L : LawfulOram O) (hh : O.height ≤ 30) {data : List Block} (hd : Loadable O data)
    (hc : ∀ ℓ, v.cached ℓ = false) (hfits : O.bucketCount data < 2 ^ O.height ∨ 2 ^ O.height < O.storage.capacity) :
    Refines L.Sees v (O.load data) (fun order v' => Loaded O data v order v') (L.Fails fun e _ => L.storage.fault e) := by
  have hcount := hd.bucketCount_le L.Z_pos
  have hlt : ∀ i < O.bucketCount data, O.loadLocation (O.bucketCount data) i < O.storage.capacity := fun i hi => by
    rcases hfits with hfits | hfits
    · exact (loadLocation_lt hh hfits hi).trans_le L.capacity_ge
    · exact (loadLocation_le hh hcount hi).trans_lt hfits
  apply load_collected L hh hd (fun e s h => h.mono fun _ _ h => h.elim)
  intro order requests v₁ h
  have hframe := h.frame
  have hc₁ : ∀ ℓ, v₁.cached ℓ = false := fun ℓ => by
    rw [hframe]
    exact hc ℓ
  refine (storageSet_refines (h.accepts L hd (h.locations_lt hlt)) hc₁).post fun _ v₂ ⟨call, hcall, hv₂⟩ => ?_
  refine ⟨requests, call, v₁, h, hcall, ?_⟩
  rw [hv₂, hframe]

/-- **`load` throws** when there are as many buckets as the tree has numbers and the storage has no more. -/
theorem load_rejects (L : LawfulOram O) (hh : O.height ≤ 30) {data : List Block} (hd : Loadable O data)
    (hcount : O.bucketCount data = 2 ^ O.height) (hcap : O.storage.capacity = 2 ^ O.height) :
    Refines L.Sees v (O.load data) (fun _ _ => False) fun _ _ => True := by
  apply load_collected L hh hd (fun _ _ _ => trivial)
  intro order requests v₁ h
  have hpos := Nat.two_pow_pos O.height
  have hlast : 2 ^ O.height ∈ requests.map Prod.fst := by
    rw [h.locations, hcount]
    exact List.mem_map.2 ⟨2 ^ O.height - 1, List.mem_range.2 (by omega), loadLocation_last hh⟩
  obtain ⟨r, hr, hr1⟩ := List.mem_map.1 hlast
  intro w s _
  have hrequest : ∀ r ∈ requests, Triple (fun _ => True) (O.storage.encodeRequest r)
      (fun _ _ => True ∧ r.1 < O.storage.capacity) fun _ _ => True := by
    intro r _
    unfold StorageAdapter.encodeRequest
    refine Triple.bind (Q := fun _ _ => r.1 < O.storage.capacity) ?_ fun _ w s h => ?_
    · exact Triple.ite (fun _ => Triple.throw fun _ _ => trivial) fun h => Triple.pure fun _ _ => not_le.1 h
    · rcases Prog.exec _ w s with ⟨_ | _, _, _⟩
      · exact trivial
      · exact ⟨trivial, h⟩
  have hset : Triple (fun _ => True) (O.storage.set requests) (fun _ _ => False) fun _ _ => True := by
    unfold StorageAdapter.set
    apply (Triple.mapM hrequest).bind
    intro writes w s ⟨_, hall⟩
    obtain ⟨write, -, hlt⟩ := exists_of_mem_right hall.flip hr
    have hlt : r.1 < O.storage.capacity := hlt
    omega
  have hz := Triple.zoom (OramState.storageLens β μ) hset s w s ⟨rfl, trivial⟩
  unfold Oram.onStorage
  rcases hrun : (Prog.zoom (OramState.storageLens β μ) (O.storage.set requests)).exec w s with ⟨e | a, w', s'⟩
  · exact trivial
  · rw [hrun] at hz
    obtain ⟨t, -, h⟩ := hz
    exact h.elim

end LawfulOram

end PathOram
