/-
What the server sees of a `get` or a `put`.

The storage keeps a record of its calls; `observed` is what each shows: which locations, and how long the buffers are.
The results start from any state with an empty cache, whatever its contents and however it was reached.

- `get_observed`, `set_observed`: what one call of the storage shows.
- `single_observed`: **one request**. It shows the path of the leaf of its block, once read and once written.
- `run_observed`: **a run** shows a function of the sequence of leaves.
- `trace_of_leaves`: two runs with the same leaves show the same.
-/
import PathOram.Frame

namespace PathOram

open Lib

/-- what a call shows: its kind, its locations and the sizes of its buffers, in no order -/
def StorageCall.observed : StorageCall → Bool × Multiset ℕ × Multiset ℕ
  | .get locations => (true, locations, 0)
  | .set writes => (false, (writes.map Prod.fst : List ℕ), (writes.map fun x => x.2.length : List ℕ))

/-- what a request shows: the path to a leaf is read by one call and written by another -/
def accessTrace (height blockSize leaf : ℕ) : List (Bool × Multiset ℕ × Multiset ℕ) :=
  [(true, path height leaf, 0), (false, path height leaf, Multiset.replicate height blockSize)]

/-! ## Calls of the storage -/

namespace StorageAdapter

variable {β : Type} {S : StorageAdapter β} {calls : List StorageCall}

theorem length_decodeBucket {raw : Bytes} {b : Bucket} (h : S.decodeBucket raw = .ok b) : b.length = S.Z := by
  unfold decodeBucket at h
  cases hd : encrypt S.crypto S.key (raw.take aesBlockSize) (raw.drop aesBlockSize) [] .decrypt with
  | error e =>
    rw [hd] at h
    cases h
  | ok decrypted =>
    rw [hd] at h
    cases h
    simp

theorem length_decodeBuckets {raws : List Bytes} {buckets : List Bucket} (h : raws.mapM S.decodeBucket = .ok buckets) :
    buckets.flatten.length = raws.length * S.Z := by
  have hall := of_mapM_decodeBucket h
  rw [hall.length_eq]
  apply length_flatten
  intro b hb
  obtain ⟨raw, -, hraw⟩ := exists_of_mem_right hall hb
  exact length_decodeBucket hraw

/-- a download records its locations and returns Z blocks for each -/
theorem get_observed (L : LawfulBackend S.backend S.capacity S.blockSize) {locations : List ℕ}
    (hl : ∀ ℓ ∈ locations, ℓ < S.capacity) (hn : S.Ends locations.length) :
    Triple (fun s : StorageState β => s.calls = calls) (S.get locations)
      (fun r s => r.length = locations.length * S.Z ∧ s.calls = calls ++ [.get locations]) (fun _ _ => True) := by
  intro w s hs
  suffices h : Triple (RawIs L (L.raw s.backend) calls) (S.get locations)
      (fun r s => r.length = locations.length * S.Z ∧ s.calls = calls ++ [.get locations]) (fun _ _ => True) from
    h w s ⟨rfl, hs⟩
  unfold get
  apply (checkCapacities_pass hl).bind
  intro _
  apply (logCall_triple (.get locations)).bind
  intro _
  refine ((download_triple hl hn).conseq (fun _ hs => hs) (fun _ _ hs => hs) fun _ _ _ => trivial).bind
    fun raws => Triple.of_pure fun hraws => ?_
  have hlen : raws.length = locations.length := by rw [hraws, List.length_map]
  refine Triple.bind (Q := fun buckets s => raws.mapM S.decodeBucket = .ok buckets ∧ s.calls = calls ++ [.get locations])
    (Triple.ofExcept (fun _ s ha hs => ⟨ha, hs.2⟩) fun _ _ _ _ => trivial) fun buckets => ?_
  exact Triple.of_pure fun hb => Triple.pure fun s hs => ⟨by rw [length_decodeBuckets hb, hlen], hs⟩

/-- an encoded request is as long as a bucket -/
theorem encodeRequest_fits (hc : S.crypto.Lawful) {P : StorageState β → Prop} (r : ℕ × Bucket) :
    Triple P (S.encodeRequest r) (fun w s => P s ∧ w.1 = r.1 ∧ Fits S w) (fun _ _ => True) := by
  unfold encodeRequest
  refine Triple.bind (Q := fun _ s => r.1 < S.capacity ∧ P s) (Triple.ite (fun _ => Triple.throw fun _ _ => trivial)
    fun h => Triple.pure fun _ hs => ⟨not_le.1 h, hs⟩) fun _ => Triple.of_pure fun hlt => ?_
  apply Triple.ite (fun _ => Triple.throw fun _ _ => trivial)
  intro hlen
  have hblock : ∀ b ∈ r.2, Triple P (S.encodeBlock b)
      (fun record s => P s ∧ record.length = S.userBlockSize + aesBlockSize) (fun _ _ => True) := by
    intro b _
    refine Triple.bind (Q := fun _ s => b.2.length ≤ S.userBlockSize ∧ P s) (Triple.ite (fun _ => Triple.throw fun _ _ => trivial)
      fun h => Triple.pure fun _ hs => ⟨not_lt.1 h, hs⟩) fun _ => Triple.of_pure fun hb => ?_
    exact Triple.pure fun _ hs => ⟨hs, length_record S hb⟩
  apply (Triple.mapM hblock).bind
  intro records
  refine Triple.pre (P := fun s => records.flatten.length = r.2.length * (S.userBlockSize + aesBlockSize) ∧ P s)
    (Triple.of_pure fun hrecords => ?_) fun s hs => ⟨?_, hs.1⟩
  · apply (getRandomBlock_triple aesBlockSize).bind
    intro iv
    have hZ : r.2.length = S.Z := not_not.1 hlen
    have htwo := S.two_blocks
    have hwhole := S.whole_blocks
    have hpos : records.flatten.length ≠ 0 := by
      rw [hrecords, hZ]
      exact Nat.mul_ne_zero S.Z_ne_zero (by norm_num [aesBlockSize])
    have hmul : records.flatten.length % aesBlockSize = 0 := by
      rw [hrecords, Nat.mul_mod, Nat.add_mod, hwhole]
      norm_num [aesBlockSize]
    obtain ⟨cipher, hencrypt, hcipher, -⟩ := decrypt_encrypt hc S.key_length iv.2 hpos hmul iv.1
    rw [hencrypt]
    refine Triple.bind (Q := fun a s => a = iv.1 ++ cipher ∧ P s)
      (Triple.ofExcept (fun _ _ ha hs => ⟨(Except.ok.inj ha).symm, hs⟩) fun _ _ _ _ => trivial) fun a => ?_
    refine Triple.of_pure fun ha => Triple.pure fun s hs => ⟨hs, rfl, hlt, ?_⟩
    change a.length = S.blockSize
    rw [ha, List.length_append, iv.2, hcipher, hrecords, hZ, AbsStorageAdapter.blockSize, Nat.mul_comm, Nat.add_comm]
  · have hall : ∀ c ∈ records, c.length = S.userBlockSize + aesBlockSize := fun c hcm => by
      obtain ⟨b, -, hb⟩ := exists_of_mem_right hs.2 hcm
      exact hb
    rw [length_flatten hall, hs.2.length_eq]

/-- an upload that succeeds records its locations, with a buffer of a bucket's size for each -/
theorem set_observed (L : LawfulBackend S.backend S.capacity S.blockSize) (hc : S.crypto.Lawful)
    (requests : List (ℕ × Bucket)) :
    Triple (fun s : StorageState β => s.calls = calls) (S.set requests)
      (fun _ s => ∃ writes, s.calls = calls ++ [.set writes] ∧ writes.map Prod.fst = requests.map Prod.fst ∧
        ∀ x ∈ writes, x.2.length = S.blockSize) (fun _ _ => True) := by
  intro w s hs
  suffices h : Triple (RawIs L (L.raw s.backend) calls) (S.set requests)
      (fun _ s => ∃ writes, s.calls = calls ++ [.set writes] ∧ writes.map Prod.fst = requests.map Prod.fst ∧
        ∀ x ∈ writes, x.2.length = S.blockSize) (fun _ _ => True) from h w s ⟨rfl, hs⟩
  unfold set
  apply (Triple.mapM fun r _ => encodeRequest_fits hc r).bind
  intro writes
  refine Triple.pre (P := fun s' => List.Forall₂ (fun r w => w.1 = r.1 ∧ Fits S w) requests writes ∧
    RawIs L (L.raw s.backend) calls s') (Triple.of_pure fun hall => ?_) fun s' hs' => ⟨hs'.2, hs'.1⟩
  have hfits : ∀ x ∈ writes, Fits S x := fun x hx => by
    obtain ⟨r, -, hr⟩ := exists_of_mem_right hall hx
    exact hr.2
  have hfst : writes.map Prod.fst = requests.map Prod.fst := by
    rw [← List.forall₂_eq_eq_eq, List.forall₂_map_left_iff, List.forall₂_map_right_iff]
    exact hall.flip.imp fun _ _ h => h.1
  refine (logCall_triple (.set writes)).bind fun _ => (upload_triple hfits).conseq (fun _ hs' => hs') ?_ fun _ _ _ => trivial
  exact fun _ s' hs' => ⟨writes, hs'.2, hfst, fun x hx => (hfits x hx).2⟩

end StorageAdapter

/-! ## One request -/

section

variable {β : Type} {S : StorageAdapter β} {mapCapacity stashCapacity height batchSize : ℕ}

/-- the downloaded buckets are cached at the locations that were asked for -/
theorem mem_cacheDownloaded {μ : Type} {O : Oram β μ} {toGet : List ℕ} {blocks : List Block} {i : ℕ} {bucket : Bucket}
    {cache : UnorderedMap ℕ Bucket} (hi : i + blocks.length ≤ toGet.length * O.Z) {ℓ : ℕ}
    (h : ℓ ∈ O.cacheDownloaded toGet blocks i bucket cache) : ℓ ∈ cache ∨ ℓ ∈ toGet := by
  induction blocks generalizing i bucket cache with
  | nil => exact Or.inl h
  | cons b blocks ih =>
    rw [List.length_cons] at hi
    rw [Oram.cacheDownloaded] at h
    split_ifs at h
    · rcases ih (by omega) h with hℓ | hℓ
      · rcases (AList.mem_insert _).1 hℓ with rfl | hℓ
        · have hlt : i / O.Z < toGet.length := Nat.div_lt_of_lt_mul (by rw [Nat.mul_comm]; omega)
          have hgetD : toGet.getD (i / O.Z) 0 = toGet[i / O.Z] := by simp [hlt]
          rw [hgetD]
          exact Or.inr (List.getElem_mem hlt)
        · exact Or.inl hℓ
      · exact Or.inr hℓ
    · exact ih (by omega) h

/-- the path was read by one call, and nothing else is cached -/
def Downloaded {μ : Type} (O : Oram β μ) (leaf : ℕ) (calls : List StorageCall) (s : OramState β μ) : Prop :=
  (∃ locations, locations.Perm (path O.height leaf) ∧ s.storage.calls = calls ++ [.get locations]) ∧
    ∀ ℓ ∈ s.cache, ℓ ∈ path O.height leaf

variable (h : Sizes S.toAbsStorageAdapter S.crypto mapCapacity height)
  (L : LawfulBackend S.backend S.capacity S.blockSize) {leaf : ℕ} (hleaf : leaf < 2 ^ (height - 1)) {calls : List StorageCall}

include h L hleaf

theorem readPath_observed :
    Triple (fun s => s.cache = ∅ ∧ s.storage.calls = calls)
      ((arrayOram S mapCapacity stashCapacity height batchSize).readPath leaf [] true)
      (fun _ => Downloaded (arrayOram S mapCapacity stashCapacity height batchSize) leaf calls) (fun _ _ => True) := by
  set O := arrayOram S mapCapacity stashCapacity height batchSize with hO
  have hsized : LawfulOram O := arrayOram_lawful h L stashCapacity batchSize
  have hperm := hsized.pathLocations_perm hleaf
  unfold Oram.readPath
  refine Triple.ite (fun _ => ?_) fun h => absurd rfl h
  have hblocks : ∀ blocks, Triple (Downloaded O leaf calls) (O.addBlocks blocks) (fun _ => Downloaded O leaf calls)
      (fun _ _ => True) := fun blocks =>
    Triple.forM (fun _ => Downloaded O leaf calls) fun b _ _ => Triple.ite
      (fun _ => (onStash_keeps (fun _ _ hs => hs) _).conseq (fun _ hs => hs) (fun _ _ hs => hs) fun _ _ _ => trivial)
      fun _ => Triple.pure fun _ hs => hs
  refine Triple.bind (Q := fun _ => Downloaded O leaf calls) ?_ fun blocks =>
    (hblocks blocks).bind fun _ => Triple.pure fun _ hs => hs
  unfold Oram.getCache
  refine Triple.bind (Q := fun a s => a = s ∧ s.cache = ∅ ∧ s.storage.calls = calls) (Triple.read fun _ hs => ⟨rfl, hs⟩)
    fun a => ?_
  apply (iterate_triple _).bind
  intro order
  apply Triple.of_pure
  intro horder w s ⟨hs, hempty, hcalls⟩
  subst hs
  -- the cache is empty, so every location is missing
  have hmissing : order.filter (fun location => location ∉ a.cache) = order := by
    rw [hempty]
    exact List.filter_eq_self.2 fun ℓ _ => by simp [AList.notMem_empty]
  have hpath := horder.trans hperm
  have hpos : 0 < order.length := by
    rw [hpath.length_eq, path_length]
    exact h.height_pos
  have hlt : ∀ ℓ ∈ order, ℓ < S.capacity := fun ℓ hℓ => hsized.mem_path_capacity hleaf (hpath.subset hℓ)
  refine (Triple.ite (P := fun s => s = a) (fun _ => ?_) (fun hn => absurd hpos (by rwa [hmissing] at hn))) w a rfl
  rw [hmissing]
  have hget : Triple (fun s => s.storage.calls = calls ∧ s.cache = ∅) (Oram.onStorage (O.storage.get order))
      (fun r s => (r.length = order.length * S.Z ∧ s.storage.calls = calls ++ [.get order]) ∧ s.cache = ∅)
      (fun _ _ => True) :=
    (Triple.zoom_frame (OramState.storageLens β (PositionArray mapCapacity)) (StorageAdapter.get_observed L hlt
      (StorageAdapter.ends_of_lt (horder.length_eq ▸ hsized.pathLocations_length hleaf)))
      (F := fun s => s.cache = ∅) fun _ _ hs => hs).conseq (fun _ hs => hs) (fun _ _ hs => hs) fun _ _ _ => trivial
  apply (hget.pre fun s hs => by rw [hs]; exact ⟨hcalls, hempty⟩).bind
  intro downloaded
  refine Triple.bind (Q := fun _ => Downloaded O leaf calls) (Triple.modify fun s hs => ⟨⟨order, hpath, hs.1.2⟩, fun ℓ hℓ => ?_⟩)
    fun _ => Triple.pure fun _ hs => hs
  change ℓ ∈ O.cacheDownloaded order downloaded 0 [] s.cache at hℓ
  rw [hs.2] at hℓ
  rcases mem_cacheDownloaded (O := O) (by rw [hs.1.1, Nat.zero_add]; exact le_rfl) hℓ with hℓ | hℓ
  · exact absurd hℓ (AList.notMem_empty ℓ)
  · exact hpath.subset hℓ

/-- the eviction caches the path -/
theorem writePath_observed :
    Triple (Downloaded (arrayOram S mapCapacity stashCapacity height batchSize) leaf calls)
      ((arrayOram S mapCapacity stashCapacity height batchSize).writePath leaf)
      (fun _ s => Downloaded (arrayOram S mapCapacity stashCapacity height batchSize) leaf calls s ∧
        ∀ ℓ ∈ path height leaf, ℓ ∈ s.cache) (fun _ _ => True) := by
  set O := arrayOram S mapCapacity stashCapacity height batchSize with hO
  have hsized : LawfulOram O := arrayOram_lawful h L stashCapacity batchSize
  have hlevels : ∀ ℓ, ℓ ∈ (List.range height).reverse.map (fun level => O.bucketForLevelLeaf level leaf) ↔
      ℓ ∈ path height leaf := by
    intro ℓ
    simp only [List.mem_map, List.mem_reverse, List.mem_range, mem_path]
    exact exists_congr fun level => and_congr_right fun hl => by rw [hsized.bucketForLevelLeaf_eq hl hleaf]; rfl
  unfold Oram.writePath
  refine Triple.bind ((onStash_keeps (P := Downloaded O leaf calls) (fun _ _ hs => hs) _).conseq (fun _ hs => hs)
    (fun _ _ hs => hs) fun _ _ _ => trivial) fun currentStash => ?_
  refine ((writeLevels_keeps (fun i => arrayGet_keeps i) leaf height _).conseq (fun _ hs => hs) (fun _ _ hs => hs)
    fun _ _ _ => trivial).bind fun e => Triple.of_pure fun hrequests => ?_
  rw [List.map_nil, List.nil_append] at hrequests
  refine Triple.bind (Q := fun _ s => Downloaded O leaf calls s ∧ ∀ ℓ ∈ path height leaf, ℓ ∈ s.cache)
    (Triple.modify fun s hs => ⟨⟨hs.1, fun ℓ hℓ => ?_⟩, fun ℓ hℓ => ?_⟩) fun _ => ?_
  · rcases UnorderedMap.mem_assignAll.1 hℓ with hℓ | hℓ
    · exact hs.2 ℓ hℓ
    · rw [hrequests] at hℓ
      exact (hlevels ℓ).1 hℓ
  · refine UnorderedMap.mem_assignAll.2 (Or.inr ?_)
    rw [hrequests]
    exact (hlevels ℓ).2 hℓ
  · apply Triple.forM (fun _ s => Downloaded O leaf calls s ∧ ∀ ℓ ∈ path height leaf, ℓ ∈ s.cache)
    intro _ _ _
    exact (onStash_keeps (fun _ _ hs => hs) _).conseq (fun _ hs => hs) (fun _ _ hs => hs) fun _ _ _ => trivial

/-- the path that is cached is written by one call -/
theorem syncCache_observed :
    Triple (fun s => Downloaded (arrayOram S mapCapacity stashCapacity height batchSize) leaf calls s ∧
        ∀ ℓ ∈ path height leaf, ℓ ∈ s.cache)
      (arrayOram S mapCapacity stashCapacity height batchSize).syncCache
      (fun _ s => s.cache = ∅ ∧
        s.storage.calls.map StorageCall.observed = calls.map StorageCall.observed ++ accessTrace height S.blockSize leaf)
      (fun _ _ => True) := by
  set O := arrayOram S mapCapacity stashCapacity height batchSize with hO
  unfold Oram.syncCache
  refine Triple.bind (Q := fun a s => a = s ∧ Downloaded O leaf calls s ∧ ∀ ℓ ∈ path height leaf, ℓ ∈ s.cache)
    (Triple.read fun _ hs => ⟨rfl, hs⟩) fun a => ?_
  apply (iterate_triple _).bind
  intro range
  apply Triple.of_pure
  intro hrange w s ⟨hs, ⟨⟨locations, hlocations, hcalls⟩, hcache⟩, hpath⟩
  subst hs
  have hkeys : (range.map Prod.fst).Perm (path height leaf) := by
    have hnodup : (range.map Prod.fst).Nodup := ((hrange.map Prod.fst).nodup_iff).2 a.cache.nodup_keys
    apply (List.perm_ext_iff_of_nodup hnodup (path_nodup hleaf)).2
    intro ℓ
    rw [(hrange.map Prod.fst).mem_iff, UnorderedMap.toList_keys, ← AList.mem_keys]
    exact ⟨hcache ℓ, hpath ℓ⟩
  refine (Triple.bind (P := fun s => s = a) (Q := fun _ s => s.storage.calls = calls ++ [.get locations])
    (Triple.modify fun s hs => by rw [hs]; exact hcalls) fun _ => ?_) w a rfl
  have hset : Triple (fun s => s.storage.calls = calls ++ [.get locations] ∧ True) (Oram.onStorage (O.storage.set range))
      (fun _ s => (∃ writes, s.storage.calls = (calls ++ [.get locations]) ++ [.set writes] ∧
        writes.map Prod.fst = range.map Prod.fst ∧ ∀ x ∈ writes, x.2.length = S.blockSize) ∧ True) (fun _ _ => True) :=
    (Triple.zoom_frame (OramState.storageLens β (PositionArray mapCapacity)) (StorageAdapter.set_observed L h.crypto range)
      (F := fun _ => True) fun _ _ hs => hs).conseq (fun _ hs => hs) (fun _ _ hs => hs) fun _ _ _ => trivial
  refine (hset.pre fun _ hs => ⟨hs, trivial⟩).bind fun _ => Triple.modify fun s hs => ⟨rfl, ?_⟩
  obtain ⟨⟨writes, hwrites, hfst, hsize⟩, -⟩ := hs
  have hsizes : writes.map (fun x => x.2.length) = List.replicate height S.blockSize := by
    rw [List.eq_replicate_iff, List.length_map, ← List.length_map Prod.fst, hfst, hkeys.length_eq, path_length]
    refine ⟨rfl, fun n hn => ?_⟩
    obtain ⟨x, hx, rfl⟩ := List.mem_map.1 hn
    exact hsize x hx
  change s.storage.calls.map StorageCall.observed = _
  rw [hwrites, List.map_append, List.map_append, List.append_assoc]
  congr 1
  have hget : (locations : Multiset ℕ) = (path height leaf : List ℕ) := Multiset.coe_eq_coe.2 hlocations
  have hset : ((range.map Prod.fst : List ℕ) : Multiset ℕ) = (path height leaf : List ℕ) := Multiset.coe_eq_coe.2 hkeys
  simp only [List.map_cons, List.map_nil, StorageCall.observed, hfst, hsizes, hget, hset, accessTrace,
    Multiset.coe_replicate, List.cons_append, List.nil_append]

end

/-! ## Requests and runs -/

/-- the block of a `get` or a `put` -/
def Call.single : Call → Option ℕ
  | .get block => some block
  | .put block _ => some block
  | .multiple _ => none

/-- requests that return, each with the leaf that its block has before it -/
inductive LeafRun {β : Type} {mapCapacity : ℕ} (O : Oram β (PositionArray mapCapacity)) :
    OramState β (PositionArray mapCapacity) → List Call → List ℕ → OramState β (PositionArray mapCapacity) → Prop
  | nil (s : OramState β (PositionArray mapCapacity)) : LeafRun O s [] [] s
  | cons {s s₁ s₂ : OramState β (PositionArray mapCapacity)} {call : Call} {block leaf : ℕ} {calls : List Call}
      {leaves : List ℕ} {w w₁ : World} {reply : Reply} :
      call.single = some block → s.map[block]? = some leaf → (O.exec call).exec w s = (.ok reply, w₁, s₁) →
      LeafRun O s₁ calls leaves s₂ → LeafRun O s (call :: calls) (leaf :: leaves) s₂

/-- the leaves of requests that are made in one world, if all of them return -/
def Oram.leavesOf {β : Type} {mapCapacity : ℕ} (O : Oram β (PositionArray mapCapacity)) (w : World) :
    OramState β (PositionArray mapCapacity) → List Call → Option (List ℕ)
  | _, [] => some []
  | s, call :: calls => do
    let block ← call.single
    let leaf ← s.map[block]?
    match (O.exec call).exec w s with
    | (.ok _, _, s') => return leaf :: (← leavesOf O w s' calls)
    | (.error _, _, _) => none

theorem leafRun_of_leavesOf {β : Type} {mapCapacity : ℕ} {O : Oram β (PositionArray mapCapacity)} {w : World}
    {s : OramState β (PositionArray mapCapacity)} {calls : List Call} {leaves : List ℕ}
    (h : O.leavesOf w s calls = some leaves) : ∃ s', LeafRun O s calls leaves s' := by
  induction calls generalizing s leaves with
  | nil =>
    cases h
    exact ⟨s, .nil s⟩
  | cons call calls ih =>
    rw [Oram.leavesOf] at h
    obtain ⟨block, hblock, h⟩ := Option.bind_eq_some_iff.1 h
    obtain ⟨leaf, hleaf, h⟩ := Option.bind_eq_some_iff.1 h
    rcases hexec : (O.exec call).exec w s with ⟨e | reply, w', s'⟩
    · rw [hexec] at h
      cases h
    · rw [hexec] at h
      obtain ⟨rest, hrest, hleaves⟩ := Option.bind_eq_some_iff.1 h
      cases hleaves
      obtain ⟨s'', hrun⟩ := ih hrest
      exact ⟨s'', .cons hblock hleaf hexec hrun⟩

section

variable {β : Type} {S : StorageAdapter β} {mapCapacity stashCapacity height batchSize : ℕ}

/-- **One request**, from any state with an empty cache: if it returns, it shows the path of the leaf of its block. -/
theorem single_observed (h : Sizes S.toAbsStorageAdapter S.crypto mapCapacity height)
    (L : LawfulBackend S.backend S.capacity S.blockSize) {call : Call} {block leaf : ℕ} (hcall : call.single = some block)
    (hleaf : leaf < 2 ^ (height - 1)) {calls : List StorageCall} :
    Triple (fun s => s.map[block]? = some leaf ∧ s.cache = ∅ ∧ s.storage.calls = calls)
      ((arrayOram S mapCapacity stashCapacity height batchSize).exec call)
      (fun _ s => s.cache = ∅ ∧
        s.storage.calls.map StorageCall.observed = calls.map StorageCall.observed ++ accessTrace height S.blockSize leaf)
      (fun _ _ => True) := by
  set O := arrayOram S mapCapacity stashCapacity height batchSize with hO
  have hread : Triple _ (O.readPath leaf [] true) (fun _ => Downloaded O leaf calls) _ := readPath_observed h L hleaf
  have hwrite : Triple (Downloaded O leaf calls) (O.writePath leaf) _ _ := writePath_observed h L hleaf
  have hsync : Triple (fun s => Downloaded O leaf calls s ∧ ∀ ℓ ∈ path height leaf, ℓ ∈ s.cache) O.syncCache _ _ :=
    syncCache_observed h L hleaf
  have hfinish : ∀ read data response, Triple (Downloaded O leaf calls) (O.finishAccess read block data response leaf)
      (fun _ s => Downloaded O leaf calls s ∧ ∀ ℓ ∈ path height leaf, ℓ ∈ s.cache) (fun _ _ => True) := by
    intro read data response
    have hstash : ∀ {α : Type} (m : Run Stash α), Triple (Downloaded O leaf calls)
        (Oram.onStash m : Run (OramState β (PositionArray mapCapacity)) α) (fun _ => Downloaded O leaf calls)
        (fun _ _ => True) := fun m =>
      (onStash_keeps (fun _ _ hs => hs) m).conseq (fun _ hs => hs) (fun _ _ hs => hs) fun _ _ _ => trivial
    have hrest : Triple (Downloaded O leaf calls) (do
        let response ← Oram.onStash (InMemoryStashAdapter.get block response)
        O.writePath leaf
        return response : Run (OramState β (PositionArray mapCapacity)) Bytes)
        (fun _ s => Downloaded O leaf calls s ∧ ∀ ℓ ∈ path height leaf, ℓ ∈ s.cache) (fun _ _ => True) :=
      (hstash _).bind fun response => hwrite.bind fun _ => Triple.pure fun _ hs => hs
    exact Triple.ite (fun _ => (hstash _).bind fun _ => hrest) fun _ => by simpa using hrest
  have haccess : ∀ read data response, Triple (fun s => s.map[block]? = some leaf ∧ s.cache = ∅ ∧ s.storage.calls = calls)
      (O.access read block data response)
      (fun _ s => Downloaded O leaf calls s ∧ ∀ ℓ ∈ path height leaf, ℓ ∈ s.cache) (fun _ _ => True) := by
    intro read data response
    rw [access_eq]
    refine Triple.bind (Q := fun r s => r = leaf ∧ s.cache = ∅ ∧ s.storage.calls = calls) ?_ fun previousPosition =>
      Triple.of_pure fun hprevious => ?_
    · intro w s hs
      rw [exec_remap rfl]
      split_ifs
      · trivial
      · exact ⟨congrArg (fun x => x.getD 0) hs.1, hs.2⟩
    · subst hprevious
      exact hread.bind fun _ => hfinish read data response
  cases call with
  | get b =>
    cases hcall
    refine Triple.bind ?_ fun _ => Triple.pure fun _ hs => hs
    exact (haccess _ _ _).bind fun response => hsync.bind fun _ => Triple.pure fun _ hs => hs
  | put b data =>
    cases hcall
    refine Triple.bind ?_ fun _ => Triple.pure fun _ hs => hs
    exact (haccess _ _ _).bind fun response => hsync
  | multiple requests => cases hcall

/-- **A run** shows a function of the sequence of leaves. -/
theorem run_observed (h : Sizes S.toAbsStorageAdapter S.crypto mapCapacity height)
    (L : LawfulBackend S.backend S.capacity S.blockSize) {s s' : OramState β (PositionArray mapCapacity)} {calls : List Call}
    {leaves : List ℕ} (hrun : LeafRun (arrayOram S mapCapacity stashCapacity height batchSize) s calls leaves s')
    (hvalid : ∀ call ∈ calls, ∀ block, call.single = some block → block < 2 ^ height * S.Z)
    (hleaves : Leaves (arrayOram S mapCapacity stashCapacity height batchSize) s) (hcache : s.cache = ∅) :
    s'.storage.calls.map StorageCall.observed =
      s.storage.calls.map StorageCall.observed ++ leaves.flatMap (accessTrace height S.blockSize) := by
  induction hrun with
  | nil s => simp
  | @cons s s₁ s₂ call block leaf calls leaves w w₁ reply hcall hpos hexec _ ih =>
    have hblock := hvalid call List.mem_cons_self block hcall
    obtain ⟨leaf', hlt, hleaf⟩ := hleaves block hblock
    rw [hpos] at hleaf
    cases hleaf
    have hrequest : Triple (fun s₀ => s₀.map[block]? = some leaf ∧ s₀.cache = ∅ ∧ s₀.storage.calls = s.storage.calls)
        ((arrayOram S mapCapacity stashCapacity height batchSize).exec call) _ _ := single_observed h L hcall hlt
    have hone := hrequest.ok ⟨hpos, hcache, rfl⟩ hexec
    have hshl : 0 < shlOne (height - 1) := by
      have hle := h.height_le
      rw [shlOne_of_le (by omega)]
      exact Nat.two_pow_pos _
    have hleaves₁ := (exec_keeps (leaves_remaps h.height_le) hshl call).ok hleaves hexec
    rw [ih (fun c hc => hvalid c (List.mem_cons_of_mem _ hc)) hleaves₁ hone.1, hone.2, List.flatMap_cons, List.append_assoc]

end

/-- **The trace is a function of the leaves.** Two ORAMs of the same height, Z and block size, with in-memory maps and
stashes and whatever contents, are in reachable states with empty caches. If requests to them return and their blocks
have the same leaves, they show the same: for each leaf the locations of its path, which differ, read by one call and
written by another with buffers of equal size. -/
theorem trace_of_leaves {β₁ β₂ : Type} {S₁ : StorageAdapter β₁} {S₂ : StorageAdapter β₂} {height Z blockSize : ℕ}
    {mapCapacity₁ stashCapacity₁ batchSize₁ mapCapacity₂ stashCapacity₂ batchSize₂ : ℕ}
    (h₁ : Sizes S₁.toAbsStorageAdapter S₁.crypto mapCapacity₁ height) (L₁ : LawfulBackend S₁.backend S₁.capacity S₁.blockSize)
    (h₂ : Sizes S₂.toAbsStorageAdapter S₂.crypto mapCapacity₂ height) (L₂ : LawfulBackend S₂.backend S₂.capacity S₂.blockSize)
    (hZ₁ : S₁.Z = Z) (hZ₂ : S₂.Z = Z) (hB₁ : S₁.userBlockSize = blockSize) (hB₂ : S₂.userBlockSize = blockSize)
    {s₁ s₁' : OramState β₁ (PositionArray mapCapacity₁)} {s₂ s₂' : OramState β₂ (PositionArray mapCapacity₂)}
    (hs₁ : Reached (arrayOram S₁ mapCapacity₁ stashCapacity₁ height batchSize₁) s₁)
    (hs₂ : Reached (arrayOram S₂ mapCapacity₂ stashCapacity₂ height batchSize₂) s₂)
    (hcache₁ : s₁.cache = ∅) (hcache₂ : s₂.cache = ∅) {calls₁ calls₂ : List Call} {leaves : List ℕ}
    (hvalid₁ : ∀ call ∈ calls₁, ∀ block, call.single = some block → block < 2 ^ height * Z)
    (hvalid₂ : ∀ call ∈ calls₂, ∀ block, call.single = some block → block < 2 ^ height * Z)
    (hrun₁ : LeafRun (arrayOram S₁ mapCapacity₁ stashCapacity₁ height batchSize₁) s₁ calls₁ leaves s₁')
    (hrun₂ : LeafRun (arrayOram S₂ mapCapacity₂ stashCapacity₂ height batchSize₂) s₂ calls₂ leaves s₂') :
    ∃ shown, shown = leaves.flatMap (accessTrace height ((blockSize + 16) * Z + 16)) ∧
      s₁'.storage.calls.map StorageCall.observed = s₁.storage.calls.map StorageCall.observed ++ shown ∧
      s₂'.storage.calls.map StorageCall.observed = s₂.storage.calls.map StorageCall.observed ++ shown ∧
      ∀ leaf < 2 ^ (height - 1), (path height leaf).Nodup ∧ (path height leaf).length = height := by
  subst hZ₁ hB₁
  have hsize : S₂.blockSize = S₁.blockSize := by rw [AbsStorageAdapter.blockSize, hZ₂, hB₂, AbsStorageAdapter.blockSize]
  have ht₁ := run_observed h₁ L₁ hrun₁ hvalid₁ (leaves_of_reached h₁ L₁ hs₁) hcache₁
  have ht₂ := run_observed h₂ L₂ hrun₂ (hZ₂ ▸ hvalid₂) (leaves_of_reached h₂ L₂ hs₂) hcache₂
  rw [hsize] at ht₂
  exact ⟨_, rfl, ht₁, ht₂, fun leaf hleaf => ⟨path_nodup hleaf, path_length⟩⟩

/-! ## Requests to small ORAMs -/

/-- two ORAMs, one of which has been called before, and requests for the leaves 2, 3 and 0 of each -/
theorem bushy_requests : ∃ s₁ s₂ s₁' s₂',
    Reached (inMemoryOram bushyStorage plainCrypto 16 6 3 4) s₁ ∧ s₁.cache = ∅ ∧
    Reached (inMemoryOram bushyStorage plainCrypto 16 20 3 2) s₂ ∧ s₂.cache = ∅ ∧
    LeafRun (inMemoryOram bushyStorage plainCrypto 16 6 3 4) s₁ [.get 2, .put 7 [5], .get 0] [2, 3, 0] s₁' ∧
    LeafRun (inMemoryOram bushyStorage plainCrypto 16 20 3 2) s₂ [.put 10 [6], .get 9, .put 3 [7]] [2, 3, 0] s₂' := by
  set built := (inMemoryOram bushyStorage plainCrypto 16 6 3 4).construct.exec countingWorld (zeroState bushyStorage 16)
    with hbuilt
  set built' := (inMemoryOram bushyStorage plainCrypto 16 20 3 2).construct.exec countingWorld (zeroState bushyStorage 16)
    with hbuilt'
  set called := ((inMemoryOram bushyStorage plainCrypto 16 20 3 2).attempts [.put 3 [1], .multiple [(5, [2]), (9, [])]]).exec
    built'.2.1 built'.2.2 with hcalled
  have hok : built.1 = .ok () := by
    rw [hbuilt]
    decide +kernel
  have hok' : built'.1 = .ok () := by
    rw [hbuilt']
    decide +kernel
  have hempty : built.2.2.cache.entries = [] := by
    rw [hbuilt]
    decide +kernel
  have hempty' : called.2.2.cache.entries = [] := by
    rw [hcalled, hbuilt']
    decide +kernel
  have hleaves : (inMemoryOram bushyStorage plainCrypto 16 6 3 4).leavesOf countingWorld built.2.2
      [.get 2, .put 7 [5], .get 0] = some [2, 3, 0] := by
    rw [hbuilt]
    decide +kernel
  have hleaves' : (inMemoryOram bushyStorage plainCrypto 16 20 3 2).leavesOf countingWorld called.2.2
      [.put 10 [6], .get 9, .put 3 [7]] = some [2, 3, 0] := by
    rw [hcalled, hbuilt']
    decide +kernel
  obtain ⟨outcomes, houtcomes⟩ := exists_outcomes (inMemoryOram bushyStorage plainCrypto 16 20 3 2)
    [.put 3 [1], .multiple [(5, [2]), (9, [])]] built'.2.1 built'.2.2
  rw [← hcalled] at houtcomes
  clear_value called
  clear_value built built'
  obtain ⟨s₁', hrun⟩ := leafRun_of_leavesOf hleaves
  obtain ⟨s₂', hrun'⟩ := leafRun_of_leavesOf hleaves'
  refine ⟨built.2.2, called.2.2, s₁', s₂', ?_, AList.ext hempty, ?_, AList.ext hempty', hrun, hrun'⟩
  · exact ⟨_, countingWorld, built.2.1, _, [], [], built.2.1, zeroState_fresh bushyStorage 16,
      hbuilt.symm.trans (Prod.ext hok rfl), rfl⟩
  · exact ⟨_, countingWorld, built'.2.1, _, _, outcomes, called.2.1, zeroState_fresh bushyStorage 16,
      hbuilt'.symm.trans (Prod.ext hok' rfl), hcalled.symm.trans (Prod.ext houtcomes rfl)⟩

/-- the two ORAMs, in two states, show the same for different requests -/
theorem trace_of_leaves_bushy : ∃ s₁ s₁' s₂ s₂' : OramState (BlockArray 8 112) (PositionArray 16), ∃ shown,
    shown = [2, 3, 0].flatMap (accessTrace 3 ((32 + 16) * 2 + 16)) ∧
      s₁'.storage.calls.map StorageCall.observed = s₁.storage.calls.map StorageCall.observed ++ shown ∧
      s₂'.storage.calls.map StorageCall.observed = s₂.storage.calls.map StorageCall.observed ++ shown := by
  obtain ⟨s₁, s₂, s₁', s₂', hreached, hcache, hreached', hcache', hrun, hrun'⟩ := bushy_requests
  obtain ⟨shown, hshown, htrace, htrace', -⟩ := trace_of_leaves bushy_sizes (inMemoryBackend_lawful 8 112) bushy_sizes
    (inMemoryBackend_lawful 8 112) rfl rfl rfl rfl hreached hreached' hcache hcache' (by decide) (by decide) hrun hrun'
  exact ⟨s₁, s₁', s₂, s₂', shown, hshown, htrace, htrace'⟩

/-- **After a failure the trace shows more than the leaf.** On the tiny ORAM with a stash of no capacity a put throws when
its path is cached; a get that follows does not read the path, and one without the put before it does. -/
theorem trace_after_failure : ∃ s s' s₁ s₁',
    Reached (inMemoryOram tinyStorage plainCrypto 2 0 1 4) s ∧ Reached (inMemoryOram tinyStorage plainCrypto 2 0 1 4) s₁ ∧
    LeafRun (inMemoryOram tinyStorage plainCrypto 2 0 1 4) s [.get 0] [0] s' ∧
    LeafRun (inMemoryOram tinyStorage plainCrypto 2 0 1 4) s₁ [.get 0] [0] s₁' ∧
    ¬ ∃ shown, s'.storage.calls.map StorageCall.observed = s.storage.calls.map StorageCall.observed ++ shown ∧
      s₁'.storage.calls.map StorageCall.observed = s₁.storage.calls.map StorageCall.observed ++ shown := by
  have hconstruct : ((inMemoryOram tinyStorage plainCrypto 2 0 1 4).construct.exec zeroWorld (zeroState tinyStorage 2)).1 =
      .ok () := by decide +kernel
  have hleaf : (calledState tinyStorage 2 0 1 4 []).map[0]? = some 0 := by decide +kernel
  have hleaf₁ : (calledState tinyStorage 2 0 1 4 [.put 0 [1]]).map[0]? = some 0 := by decide +kernel
  have hget : (((inMemoryOram tinyStorage plainCrypto 2 0 1 4).exec (.get 0)).exec zeroWorld
      (calledState tinyStorage 2 0 1 4 [])).1 = .ok (.got []) := by decide +kernel
  have hget₁ : (((inMemoryOram tinyStorage plainCrypto 2 0 1 4).exec (.get 0)).exec zeroWorld
      (calledState tinyStorage 2 0 1 4 [.put 0 [1]])).1 = .ok (.got []) := by decide +kernel
  have hcalls : (calledState tinyStorage 2 0 1 4 []).storage.calls.length = 1 ∧
      (((inMemoryOram tinyStorage plainCrypto 2 0 1 4).exec (.get 0)).exec zeroWorld
        (calledState tinyStorage 2 0 1 4 [])).2.2.storage.calls.length = 3 := by decide +kernel
  have hcalls₁ : (calledState tinyStorage 2 0 1 4 [.put 0 [1]]).storage.calls.length = 2 ∧
      (((inMemoryOram tinyStorage plainCrypto 2 0 1 4).exec (.get 0)).exec zeroWorld
        (calledState tinyStorage 2 0 1 4 [.put 0 [1]])).2.2.storage.calls.length = 3 := by decide +kernel
  refine ⟨_, _, _, _, reached_calledState hconstruct, reached_calledState hconstruct, .cons rfl hleaf (Prog.exec_eq hget) (.nil _),
    .cons rfl hleaf₁ (Prog.exec_eq hget₁) (.nil _), ?_⟩
  rintro ⟨shown, hshown, hshown₁⟩
  have hlen := congrArg List.length hshown
  have hlen₁ := congrArg List.length hshown₁
  rw [List.length_map, List.length_append, List.length_map, hcalls.1, hcalls.2] at hlen
  rw [List.length_map, List.length_append, List.length_map, hcalls₁.1, hcalls₁.2] at hlen₁
  omega

end PathOram
