/-
The write-back cache.

`getCache` fills the cache from the storage, `setCache` changes it, `syncCache` writes it back. `latest` is what the buckets
are supposed to be after some operations, with no cache in it: a bucket that was set is the latest one of its location, and
an upload pads. `Buffers` says that cache and storage together hold these.

- `response_perm`: what a `getCache` puts together from cached and downloaded buckets.
- `perform_buffers`: **one operation** does to the buckets what it is supposed to, also if the provider fails.
- `write_back`: **over every sequence of operations** the cache is transparent.
-/
import PathOram.Failures
import PathOram.Payloads
import PathOram.Trace

namespace PathOram

open Lib

/-- an operation on the cache -/
inductive CacheOp where
  | getCache (locations : List ℕ) (dryRun : Bool)
  | setCache (requests : List (ℕ × Bucket))
  | syncCache
deriving DecidableEq, Repr

/-- the latest buckets after an operation -/
def CacheOp.apply {β : Type} (S : StorageAdapter β) (latest : ℕ → Bucket) : CacheOp → ℕ → Bucket
  | .getCache _ _ => latest
  | .setCache requests => writeAll latest requests
  | .syncCache => fun ℓ => S.stored (latest ℓ)

/-- the latest buckets after some operations: those most recently set, or else those of the storage -/
def latest {β : Type} (S : StorageAdapter β) (store : ℕ → Bucket) (ops : List CacheOp) : ℕ → Bucket :=
  ops.foldl (CacheOp.apply S) store

section Latest

variable {β : Type} {S : StorageAdapter β}

theorem stored_stored (b : Bucket) : S.stored (S.stored b) = S.stored b := by
  unfold StorageAdapter.stored
  rw [List.map_map]
  exact List.map_congr_left fun x _ => congrArg (Prod.mk x.1) (zeroPad_zeroPad _ _)

/-- padding apart, uploads do not matter for the latest buckets -/
theorem stored_latest (store : ℕ → Bucket) (ops : List CacheOp) (ℓ : ℕ) :
    S.stored (latest S store ops ℓ) = S.stored (latest S store (ops.filter (· ≠ .syncCache)) ℓ) := by
  suffices h : ∀ (ops : List CacheOp) (f g : ℕ → Bucket), (∀ ℓ, S.stored (f ℓ) = S.stored (g ℓ)) → ∀ ℓ,
      S.stored (latest S f ops ℓ) = S.stored (latest S g (ops.filter (· ≠ .syncCache)) ℓ) from
    h ops store store (fun _ => rfl) ℓ
  intro ops
  induction ops with
  | nil => exact fun f g h => h
  | cons op ops ih =>
    intro f g h
    cases op with
    | getCache locations dryRun => exact ih f g h
    | setCache requests =>
      apply ih (writeAll f requests) (writeAll g requests)
      intro ℓ
      induction requests generalizing f g with
      | nil => exact h ℓ
      | cons r requests ihr =>
        apply ihr (Function.update f r.1 r.2) (Function.update g r.1 r.2)
        intro ℓ
        rw [Function.update_apply, Function.update_apply]
        split_ifs
        · rfl
        · exact h ℓ
    | syncCache => exact ih _ g fun ℓ => (stored_stored (f ℓ)).trans (h ℓ)

end Latest

section

variable {β μ : Type} (O : Oram β μ)

namespace Oram

/-- one operation, with the response of a `getCache` -/
def performCache : CacheOp → Run (OramState β μ) (List Block)
  | .getCache locations dryRun => O.getCache locations dryRun
  | .setCache requests => do
    Oram.setCache requests
    return []
  | .syncCache => do
    O.syncCache
    return []

end Oram

/-- The locations of a `getCache` are in the storage and not too many for it to read, and the buckets of a `setCache` pass
its checks. -/
def CacheOp.Valid : CacheOp → Prop
  | .getCache locations _ => (∀ ℓ ∈ locations, ℓ < O.storage.capacity) ∧ O.storage.Ends locations.length
  | .setCache requests => ∀ r ∈ requests, O.storage.Accepts r
  | .syncCache => True

/-- the states that a sequence of valid operations leads to, each of which returns or throws -/
inductive Oram.CacheReaches (s₀ : OramState β μ) : List CacheOp → OramState β μ → Prop
  | start : CacheReaches s₀ [] s₀
  | step {ops : List CacheOp} {s : OramState β μ} (w : World) (op : CacheOp) : CacheReaches s₀ ops s → op.Valid O →
    CacheReaches s₀ (ops ++ [op]) ((O.performCache op).exec w s).2.2

end

/-! ## Responses -/

/-- **What is read.** The cached buckets in front of the downloaded ones are the buckets of all locations, whatever the
order. -/
theorem response_perm (cache : UnorderedMap ℕ Bucket) (store : ℕ → Bucket) (order : List ℕ) :
    (order.foldl (fun response ℓ => (cache.lookup ℓ).getD [] ++ response) [] ++
      (LawfulOram.missing cache order).flatMap store).Perm (order.flatMap (LawfulOram.overlay cache store)) := by
  have hfold : ∀ (order : List ℕ) (response : List Block),
      (order.foldl (fun response ℓ => (cache.lookup ℓ).getD [] ++ response) response).Perm
        (order.flatMap (fun ℓ => (cache.lookup ℓ).getD []) ++ response) := by
    intro order
    induction order with
    | nil => exact fun response => List.Perm.refl _
    | cons ℓ order ih =>
      intro response
      rw [List.foldl_cons, List.flatMap_cons]
      refine (ih _).trans ?_
      rw [← List.append_assoc]
      exact List.perm_append_comm.append_right response
  have hsplit : (order.flatMap (fun ℓ => (cache.lookup ℓ).getD []) ++ (LawfulOram.missing cache order).flatMap store).Perm
      (order.flatMap (LawfulOram.overlay cache store)) := by
    induction order with
    | nil => exact List.Perm.refl _
    | cons ℓ order ih =>
      rw [List.flatMap_cons, List.flatMap_cons]
      by_cases hℓ : ℓ ∈ cache
      · have hmissing : LawfulOram.missing cache (ℓ :: order) = LawfulOram.missing cache order := by
          simp [LawfulOram.missing, hℓ]
        obtain ⟨bucket, hbucket⟩ := UnorderedMap.mem_iff_lookup.1 hℓ
        rw [hmissing, LawfulOram.overlay, hbucket, List.append_assoc]
        exact ih.append_left bucket
      · have hmissing : LawfulOram.missing cache (ℓ :: order) = ℓ :: LawfulOram.missing cache order := by
          simp [LawfulOram.missing, hℓ]
        rw [hmissing, LawfulOram.overlay_of_notMem hℓ, AList.lookup_eq_none.2 hℓ, List.flatMap_cons, Option.getD_none,
          List.nil_append]
        -- the bucket stands between the two parts
        refine List.perm_append_comm_assoc _ _ _ |>.trans ?_
        exact ih.append_left (store ℓ)
  refine ((hfold order []).append_right _).trans ?_
  rw [List.append_nil]
  exact hsplit

/-- buckets that are set in turn lie on top -/
theorem overlay_setCache (cache : UnorderedMap ℕ Bucket) (store : ℕ → Bucket) (requests : List (ℕ × Bucket)) :
    LawfulOram.overlay (cache.assignAll requests) store = writeAll (LawfulOram.overlay cache store) requests := by
  induction requests generalizing cache with
  | nil => rfl
  | cons r requests ih =>
    have hfirst : LawfulOram.overlay (cache.insert r.1 r.2) store =
        Function.update (LawfulOram.overlay cache store) r.1 r.2 := by
      funext ℓ
      rw [LawfulOram.overlay, UnorderedMap.lookup_insert_eq, Function.update_apply]
      split_ifs
      · rfl
      · rfl
    change LawfulOram.overlay (UnorderedMap.assignAll (cache.insert r.1 r.2) requests) store = _
    rw [ih, hfirst]
    rfl

/-! ## One operation -/

section

variable {β μ : Type} {O : Oram β μ} (L : LawfulBackend O.storage.backend O.storage.capacity O.storage.blockSize)

/-- cache and storage together hold the latest buckets, and the cached ones can be uploaded -/
structure Buffers (latest : ℕ → Bucket) (s : OramState β μ) : Prop where
  stored : ∃ store calls, StorageAdapter.Holds L store calls s.storage ∧
    (∀ ℓ, ∀ x ∈ store ℓ, FullBlock O.storage.userBlockSize x) ∧ latest = LawfulOram.overlay s.cache store
  accepted : ∀ ℓ b, s.cache.lookup ℓ = some b → O.storage.Accepts (ℓ, b)

/-- what an operation returns, and leaves, when the latest buckets before it are given -/
def Answers (latest : ℕ → Bucket) (r : List Block) (s : OramState β μ) : CacheOp → Prop
  | .getCache locations dryRun => r.Perm (if dryRun then [] else locations.flatMap latest)
  | .setCache _ => True
  | .syncCache => s.cache = ∅ ∧ ∀ ℓ < O.storage.capacity,
    O.storage.decodeBucket (L.raw s.storage.backend ℓ) = .ok (O.storage.stored (latest ℓ))

variable {L} {g : ℕ → Bucket}

theorem bucketAt_of_buffers {s : OramState β μ} (hs : Buffers L g s) {ℓ : ℕ} (hℓ : ℓ < O.storage.capacity) :
    O.bucketAt L s ℓ = g ℓ := by
  obtain ⟨store, calls, hstore, -, hg⟩ := hs.stored
  rw [Oram.bucketAt, hstore.1 ℓ hℓ, hg]
  rfl

/-- uploading pads every bucket: those of the storage are as long as a block already -/
theorem stored_overlay {cache : UnorderedMap ℕ Bucket} {store : ℕ → Bucket}
    (hfull : ∀ ℓ, ∀ x ∈ store ℓ, FullBlock O.storage.userBlockSize x) (ℓ : ℕ) :
    (if ℓ ∈ cache then O.storage.stored (LawfulOram.overlay cache store ℓ) else LawfulOram.overlay cache store ℓ) =
      O.storage.stored (LawfulOram.overlay cache store ℓ) := by
  split_ifs with h
  · rfl
  · rw [LawfulOram.overlay_of_notMem h, StorageAdapter.stored_of_full fun x hx => (hfull ℓ x hx).2]

/-- buckets that were uploaded are as long as a block -/
theorem full_writeAll {store : ℕ → Bucket} (hfull : ∀ ℓ, ∀ x ∈ store ℓ, FullBlock O.storage.userBlockSize x)
    {requests : List (ℕ × Bucket)} (hr : ∀ r ∈ requests, O.storage.Accepts r) :
    ∀ ℓ, ∀ x ∈ writeAll store (O.storage.storedRequests requests) ℓ, FullBlock O.storage.userBlockSize x := by
  induction requests generalizing store with
  | nil => exact hfull
  | cons r requests ih =>
    refine @ih (Function.update store r.1 (O.storage.stored r.2)) (fun ℓ x hx => ?_) fun r' hm => hr r' (List.mem_cons_of_mem _ hm)
    rw [Function.update_apply] at hx
    split_ifs at hx
    · obtain ⟨y, hy, rfl⟩ := List.mem_map.1 hx
      have haccept := hr r List.mem_cons_self
      exact ⟨haccept.id_lt y hy, length_zeroPad (haccept.data_le y hy)⟩
    · exact hfull ℓ x hx

/-- **One operation.** -/
theorem perform_buffers (hc : O.storage.crypto.Lawful) (hZ : O.storage.Z = O.Z) {op : CacheOp} (hop : op.Valid O) :
    Triple (Buffers L g) (O.performCache op)
      (fun r s => Answers L g r s op ∧ Buffers L (op.apply O.storage g) s)
      (fun e s => L.fault e ∧ Buffers L (op.apply O.storage g) s) := by
  rintro w s hs
  obtain ⟨store, calls, hstore, hfull, rfl⟩ := hs.stored
  suffices h : Triple (fun s' => s' = s) (O.performCache op)
      (fun r s' => Answers L (LawfulOram.overlay s.cache store) r s' op ∧
        Buffers L (op.apply O.storage (LawfulOram.overlay s.cache store)) s')
      (fun e s' => L.fault e ∧ Buffers L (op.apply O.storage (LawfulOram.overlay s.cache store)) s') from h w s rfl
  have hlength : ∀ ℓ < O.storage.capacity, (store ℓ).length = O.Z := fun ℓ hℓ =>
    hZ ▸ StorageAdapter.length_decodeBucket (hstore.1 ℓ hℓ)
  cases op with
  | getCache locations dryRun =>
    obtain ⟨hl, hn⟩ := hop
    have hpos : 0 < O.Z := hZ ▸ Nat.pos_of_ne_zero O.storage.Z_ne_zero
    refine (LawfulOram.getCache_triple hpos dryRun hl hn hstore fun ℓ hℓ _ => hlength ℓ (hl ℓ hℓ)).conseq
      (fun _ h => h) ?_ ?_
    · rintro r s' ⟨order, t, horder, ht, rfl, rfl⟩
      refine ⟨?_, ⟨store, _, ht, hfull, (LawfulOram.overlay_assignAll s.cache store order).symm⟩, fun ℓ b hb => ?_⟩
      · cases dryRun with
        | true => exact List.Perm.refl _
        | false => exact (response_perm s.cache store order).trans (horder.flatMap_right _)
      · rcases UnorderedMap.of_lookup_assignAll hb with hm | hold
        · -- a bucket of the storage passes the checks
          obtain ⟨ℓ', hℓ', hpair⟩ := List.mem_map.1 hm
          cases hpair
          have hlt := hl ℓ (horder.mem_iff.1 (LawfulOram.mem_missing.1 hℓ').1)
          exact ⟨hlt, hZ ▸ hlength ℓ hlt, fun x hx => (hfull ℓ x hx).2.le, fun x hx => (hfull ℓ x hx).1⟩
        · exact hs.accepted ℓ b hold
    · rintro e s' ⟨hf, t, call, ht, rfl⟩
      exact ⟨hf, ⟨store, _, ht, hfull, rfl⟩, hs.accepted⟩
  | setCache requests =>
    refine Triple.bind (Q := fun _ s' => s' = { s with cache := s.cache.assignAll requests })
      (Triple.modify fun s' hs' => by rw [hs']) fun _ => Triple.pure ?_
    rintro s' rfl
    refine ⟨trivial, ⟨store, calls, hstore, hfull, (overlay_setCache s.cache store requests).symm⟩, fun ℓ b hb => ?_⟩
    rcases UnorderedMap.of_lookup_assignAll hb with hm | hold
    · exact hop _ hm
    · exact hs.accepted ℓ b hold
  | syncCache =>
    have haccept : ∀ {range : List (ℕ × Bucket)}, range.Perm s.cache.toList → ∀ r ∈ range, O.storage.Accepts r := fun hr r hm =>
      hs.accepted r.1 r.2 (UnorderedMap.mem_toList.1 (hr.mem_iff.1 hm))
    refine Triple.bind ((LawfulOram.syncCache_triple hc hstore hs.accepted).conseq (fun _ h => h) (fun _ _ h => h) ?_)
      fun _ => Triple.pure ?_
    · -- some of the buckets are written, and the padded cache hides them
      rintro e s' ⟨hf, range, done, t, call, hr, hd, ht, rfl⟩
      refine ⟨hf, ⟨_, _, ht, full_writeAll hfull fun r hm => haccept hr r (hd.subset hm), ?_⟩, fun ℓ b hb => ?_⟩
      · funext ℓ
        exact (stored_overlay hfull ℓ).symm.trans (LawfulOram.overlay_writeAll O.storage hr hd ℓ).2
      · rcases UnorderedMap.of_lookup_assignAll hb with hm | hold
        · obtain ⟨r, hmem, hpair⟩ := List.mem_map.1 hm
          cases hpair
          have hr := haccept hr r hmem
          refine ⟨hr.location_lt, by simpa using hr.length_eq, fun x hx => ?_, fun x hx => ?_⟩
          · obtain ⟨y, hy, rfl⟩ := List.mem_map.1 hx
            exact (length_zeroPad (hr.data_le y hy)).le
          · obtain ⟨y, hy, rfl⟩ := List.mem_map.1 hx
            exact hr.id_lt y hy
        · exact hs.accepted ℓ b hold
    · rintro s' ⟨range, t, call, hr, hcall, ht, rfl⟩
      have hstored : writeAll store (O.storage.storedRequests range) =
          fun ℓ => O.storage.stored (LawfulOram.overlay s.cache store ℓ) := by
        funext ℓ
        exact (LawfulOram.overlay_writeAll O.storage hr (List.Sublist.refl _) ℓ).1.symm.trans (stored_overlay hfull ℓ)
      refine ⟨⟨rfl, fun ℓ hℓ => ?_⟩, ⟨_, _, ht, full_writeAll hfull (haccept hr), ?_⟩, fun ℓ b hb => ?_⟩
      · exact (ht.1 ℓ hℓ).trans (congrArg Except.ok (congrFun hstored ℓ))
      · exact hstored.symm
      · cases hb

/-! ## Runs -/

/-- after every sequence of operations the buckets are the latest ones -/
theorem run_buffers (hc : O.storage.crypto.Lawful) (hZ : O.storage.Z = O.Z) {store : ℕ → Bucket} {s₀ s : OramState β μ}
    {ops : List CacheOp} (h₀ : Buffers L store s₀) (hrun : O.CacheReaches s₀ ops s) :
    Buffers L (latest O.storage store ops) s := by
  induction hrun with
  | start => exact h₀
  | @step ops s w op _ hop ih =>
    rw [latest, List.foldl_append]
    have hstep : Triple (Buffers L (latest O.storage store ops)) (O.performCache op)
        (fun _ => Buffers L (op.apply O.storage (latest O.storage store ops)))
        (fun _ => Buffers L (op.apply O.storage (latest O.storage store ops))) :=
      (perform_buffers hc hZ hop).conseq (fun _ h => h) (fun _ _ h => h.2) fun _ _ h => h.2
    exact hstep.state ih

/-- **The write-back cache is transparent.** From an empty cache over a storage of buckets, after every sequence of valid
operations, the bucket of each location, in the cache or else in the storage, is the latest one. A `getCache` that returns
adds the blocks of the latest buckets of its locations, a dry run none, and it changes no bucket; a `syncCache` that
returns leaves the cache empty and the latest buckets in the storage, with their payloads padded. Both return unless the
provider fails. -/
theorem write_back (hc : O.storage.crypto.Lawful) (hZ : O.storage.Z = O.Z) {store : ℕ → Bucket}
    {calls : List StorageCall} {s₀ : OramState β μ} (hcache : s₀.cache = ∅)
    (hstore : StorageAdapter.Holds L store calls s₀.storage)
    (hfull : ∀ ℓ, ∀ x ∈ store ℓ, FullBlock O.storage.userBlockSize x) {ops : List CacheOp} {s : OramState β μ}
    (hrun : O.CacheReaches s₀ ops s) :
    (∀ ℓ < O.storage.capacity, O.bucketAt L s ℓ = latest O.storage store ops ℓ) ∧
    (∀ locations dryRun, (CacheOp.getCache locations dryRun).Valid O →
      Triple (fun s' => s' = s) (O.getCache locations dryRun)
        (fun r s' => r.Perm (if dryRun then [] else locations.flatMap (latest O.storage store ops)) ∧
          ∀ ℓ < O.storage.capacity, O.bucketAt L s' ℓ = O.bucketAt L s ℓ)
        (fun e s' => L.fault e ∧ ∀ ℓ < O.storage.capacity, O.bucketAt L s' ℓ = O.bucketAt L s ℓ)) ∧
    Triple (fun s' => s' = s) O.syncCache
      (fun _ s' => s'.cache = ∅ ∧ ∀ ℓ < O.storage.capacity,
        O.storage.decodeBucket (L.raw s'.storage.backend ℓ) = .ok (O.storage.stored (latest O.storage store ops ℓ)))
      (fun e _ => L.fault e) := by
  have h₀ : Buffers L store s₀ := by
    refine ⟨⟨store, calls, hstore, hfull, ?_⟩, fun ℓ b hb => ?_⟩
    · rw [hcache]
      rfl
    · rw [hcache] at hb
      cases hb
  have hs := run_buffers hc hZ h₀ hrun
  refine ⟨fun ℓ hℓ => bucketAt_of_buffers hs hℓ, fun locations dryRun hop => ?_, ?_⟩
  · have hsame : ∀ {s'}, Buffers L (latest O.storage store ops) s' →
        ∀ ℓ < O.storage.capacity, O.bucketAt L s' ℓ = O.bucketAt L s ℓ := fun hs' ℓ hℓ =>
      (bucketAt_of_buffers hs' hℓ).trans (bucketAt_of_buffers hs hℓ).symm
    exact (perform_buffers hc hZ hop).conseq (fun _ h => h ▸ hs) (fun _ _ h => ⟨h.1, hsame h.2⟩) fun _ _ h => ⟨h.1, hsame h.2⟩
  · have hsync : Triple (Buffers L (latest O.storage store ops)) (O.performCache .syncCache) _ _ :=
      perform_buffers hc hZ trivial
    intro w s' hs'
    have hout := hsync w s' (hs' ▸ hs)
    change Outcome _ _ ((O.syncCache >>= fun _ => pure []).exec w s') at hout
    rw [Prog.exec_bind] at hout
    rcases hexec : O.syncCache.exec w s' with ⟨e | u, w₁, s₁⟩
    · rw [hexec] at hout
      exact hout.1
    · rw [hexec] at hout
      exact hout.1

end

/-- a bucket is set over one of zeroes, and both locations are read -/
theorem write_back_tiny : ∃ s,
    (inMemoryOram tinyStorage plainCrypto 2 6 1 4).CacheReaches (zeroState tinyStorage 2)
      [.setCache [(1, [(7, [9])])], .getCache [1] true] s ∧
    ∀ w, ∃ r w' s', ((inMemoryOram tinyStorage plainCrypto 2 6 1 4).getCache [0, 1] false).exec w s = (.ok r, w', s') ∧
      r.Perm [(0, List.replicate 32 0), (7, [9])] := by
  set O := inMemoryOram tinyStorage plainCrypto 2 6 1 4 with hO
  have hset : CacheOp.Valid O (.setCache [(1, [(7, [9])])]) := by
    intro r hr
    rw [List.mem_singleton.1 hr]
    exact ⟨by decide, by decide, by decide, by decide⟩
  have hget : ∀ dryRun, CacheOp.Valid O (.getCache [1] dryRun) := fun _ => ⟨by decide, Or.inr (Or.inl (by decide))⟩
  have hboth : CacheOp.Valid O (.getCache [0, 1] false) := ⟨by decide, Or.inr (Or.inl (by decide))⟩
  have hdecode : ∀ ℓ < 2, O.storage.decodeBucket
      ((inMemoryBackend_lawful 2 64).raw (zeroState tinyStorage 2).storage.backend ℓ) =
      .ok [(0, List.replicate 32 0)] := by
    rw [hO]
    decide +kernel
  have hstore : StorageAdapter.Holds (S := O.storage) (inMemoryBackend_lawful 2 64)
      (fun ℓ => if ℓ < 2 then [(0, List.replicate 32 0)] else []) [] (zeroState tinyStorage 2).storage :=
    ⟨fun ℓ hℓ => (hdecode ℓ hℓ).trans (congrArg Except.ok (if_pos hℓ).symm), fun ℓ hℓ => if_neg (not_lt.2 hℓ), rfl⟩
  have hfull : ∀ ℓ, ∀ x ∈ (if ℓ < 2 then [(0, List.replicate 32 0)] else [] : Bucket), FullBlock O.storage.userBlockSize x := by
    intro ℓ x hx
    split_ifs at hx
    · rw [List.mem_singleton.1 hx]
      exact ⟨by decide, by decide⟩
    · cases hx
  have hstart : O.CacheReaches (zeroState tinyStorage 2) [] (zeroState tinyStorage 2) := .start
  have hrun := (hstart.step zeroWorld _ hset).step zeroWorld _ (hget true)
  refine ⟨_, hrun, fun w => ?_⟩
  obtain ⟨-, hread, -⟩ := write_back (O := O) (L := inMemoryBackend_lawful 2 64) plainCrypto_lawful rfl rfl hstore hfull hrun
  have hout := hread [0, 1] false hboth w _ rfl
  rcases hexec : (O.getCache [0, 1] false).exec w _ with ⟨e | r, w', s'⟩
  · rw [hexec] at hout
    exact hout.1.elim
  · rw [hexec] at hout
    exact ⟨r, w', s', rfl, hout.1⟩

end PathOram
