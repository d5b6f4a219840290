/-
The cache, and reading a path, as steps between views.

- `getCache_refines`: the buckets that are not cached are downloaded in one call; the tree stays what it was, and the
  response holds the blocks of all buckets asked for.
- `syncCache_refines`: the cached buckets are uploaded in one call; the tree stays what it was, up to zero padding.
- `readPath_refines`: the stash takes in the blocks of a path (`absorb`), until it is full.
-/
import PathOram.View

namespace PathOram

open Lib

namespace LawfulOram

variable {β μ : Type} {O : Oram β μ} {L : LawfulOram O} {v : View} {F : Exception → View → Prop}

/-! ## Downloads -/

/-- the record of a download: nothing to fetch is no call -/
def getCalls : List ℕ → List StorageCall
  | [] => []
  | locations => [.get locations]

/-- the downloaded blocks are cut where the buckets end -/
theorem cacheDownloaded_eq (hZ : 0 < O.Z) {g : ℕ → Bucket} (toGet : List ℕ) (done : ℕ) (cache : UnorderedMap ℕ Bucket)
    (h : ∀ ℓ ∈ toGet, (g ℓ).length = O.Z) :
    O.cacheDownloaded toGet ((toGet.drop done).flatMap g) (done * O.Z) [] cache =
      cache.assignAll ((toGet.drop done).map fun ℓ => (ℓ, g ℓ)) := by
  -- one bucket, of which some blocks are cut already
  have hbucket : ∀ (i : ℕ) (todo : List Block) (bucket : Bucket) (rest : List Block) (cache : UnorderedMap ℕ Bucket),
      todo ≠ [] → bucket.length + todo.length = O.Z →
      O.cacheDownloaded toGet (todo ++ rest) (i * O.Z + bucket.length) bucket cache =
        O.cacheDownloaded toGet rest ((i + 1) * O.Z) [] (cache.insert (toGet.getD i 0) (bucket ++ todo)) := by
    intro i todo
    induction todo with
    | nil => exact fun _ _ _ h => absurd rfl h
    | cons b todo ih =>
      intro bucket rest cache _ hlen
      rw [List.length_cons] at hlen
      have hmod : (i * O.Z + bucket.length) % O.Z = bucket.length := by
        rw [Nat.mul_comm, Nat.mul_add_mod, Nat.mod_eq_of_lt (by omega)]
      have hdiv : (i * O.Z + bucket.length) / O.Z = i := by
        rw [Nat.mul_comm, Nat.mul_add_div hZ, Nat.div_eq_of_lt (by omega), Nat.add_zero]
      rw [List.cons_append, Oram.cacheDownloaded, hmod, hdiv]
      cases todo with
      | nil =>
        have hz : bucket.length = O.Z - 1 := by simp at hlen; omega
        have hnext : i * O.Z + bucket.length + 1 = (i + 1) * O.Z := by rw [Nat.succ_mul]; omega
        rw [if_pos hz, List.nil_append, hnext]
      | cons b' todo =>
        have hz : bucket.length ≠ O.Z - 1 := by simp at hlen; omega
        have hstep := ih (bucket ++ [b]) rest cache (List.cons_ne_nil _ _) (by simp at hlen ⊢; omega)
        rw [if_neg hz]
        simpa [Nat.add_assoc] using hstep
  induction hn : toGet.length - done generalizing done cache with
  | zero => rw [List.drop_eq_nil_of_le (by omega)]; rfl
  | succ n ih =>
    have hlt : done < toGet.length := by omega
    have hlen := h _ (List.getElem_mem hlt)
    have hne : g toGet[done] ≠ [] := fun he => by rw [he] at hlen; exact hZ.ne' hlen.symm
    have hgetD : toGet.getD done 0 = toGet[done] := by simp [hlt]
    have hstep := hbucket done (g toGet[done]) [] ((toGet.drop (done + 1)).flatMap g) cache hne (by simpa using hlen)
    rw [List.drop_eq_getElem_cons hlt, List.flatMap_cons]
    simp only [List.length_nil, Nat.add_zero, hgetD, List.nil_append] at hstep
    rw [hstep, ih (done + 1) _ (by omega)]
    rfl

/-- what a lookup of a cache filled from the storage finds -/
theorem lookup_assignAll_map (cache : UnorderedMap ℕ Bucket) (g : ℕ → Bucket) (locations : List ℕ) (ℓ : ℕ) :
    (cache.assignAll (locations.map fun ℓ => (ℓ, g ℓ))).lookup ℓ =
      if ℓ ∈ locations then some (g ℓ) else cache.lookup ℓ := by
  induction locations generalizing cache with
  | nil => rfl
  | cons a locations ih =>
    show (UnorderedMap.assignAll (cache.insert a (g a)) (locations.map fun ℓ => (ℓ, g ℓ))).lookup ℓ = _
    rw [ih, UnorderedMap.lookup_insert_eq]
    by_cases h1 : ℓ ∈ locations <;> by_cases h2 : ℓ = a <;> simp [h1, h2]

/-- the blocks that a response takes from cached buckets -/
theorem mem_cachedResponse (f : ℕ → List Block) (order : List ℕ) (x : Block) :
    x ∈ order.foldl (fun response ℓ => f ℓ ++ response) [] ↔ ∃ ℓ ∈ order, x ∈ f ℓ := by simp

/-- the locations are cached, those that were not by one download -/
def Cached (v : View) (locations : List ℕ) (v' : View) : Prop :=
  ∃ missing, missing.Perm (locations.filter fun ℓ => !v.cached ℓ) ∧
    v' = { v with cached := fun ℓ => v.cached ℓ || decide (ℓ ∈ locations), calls := v.calls ++ getCalls missing }

/-- the download failed -/
def DownloadFault (L : LawfulOram O) (v : View) (e : Exception) (v' : View) : Prop :=
  L.storage.fault e ∧ ∃ call, v' = { v with calls := v.calls ++ [call] }

/-- the locations that a state does not have in its cache, in the order in which they are met -/
def missing (cache : UnorderedMap ℕ Bucket) (order : List ℕ) : List ℕ := order.filter fun ℓ => ℓ ∉ cache

/-- the logical tree of a cache and a storage -/
def overlay (cache : UnorderedMap ℕ Bucket) (store : ℕ → Bucket) (ℓ : ℕ) : Bucket := (cache.lookup ℓ).getD (store ℓ)

theorem length_missing_le (cache : UnorderedMap ℕ Bucket) (order : List ℕ) :
    (missing cache order).length ≤ order.length := List.length_filter_le _ _

theorem mem_missing {cache : UnorderedMap ℕ Bucket} {order : List ℕ} {ℓ : ℕ} :
    ℓ ∈ missing cache order ↔ ℓ ∈ order ∧ ℓ ∉ cache := by
  rw [missing, List.mem_filter, decide_eq_true_eq]

theorem overlay_of_notMem {cache : UnorderedMap ℕ Bucket} {store : ℕ → Bucket} {ℓ : ℕ} (h : ℓ ∉ cache) :
    overlay cache store ℓ = store ℓ := by
  rw [overlay, AList.lookup_eq_none.2 h]
  rfl

/-- filling the cache from the storage does not change the tree -/
theorem overlay_assignAll (cache : UnorderedMap ℕ Bucket) (store : ℕ → Bucket) (order : List ℕ) :
    overlay (cache.assignAll ((missing cache order).map fun ℓ => (ℓ, store ℓ))) store = overlay cache store := by
  funext ℓ
  by_cases h : ℓ ∈ missing cache order
  · rw [overlay, lookup_assignAll_map, if_pos h, overlay_of_notMem (mem_missing.1 h).2]
    rfl
  · rw [overlay, lookup_assignAll_map, if_neg h, overlay]

/-- the blocks of the cached buckets and the downloaded ones are those of the tree -/
theorem mem_response (cache : UnorderedMap ℕ Bucket) (store : ℕ → Bucket) (order : List ℕ) (x : Block) :
    x ∈ order.foldl (fun response ℓ => (cache.lookup ℓ).getD [] ++ response) [] ++ (missing cache order).flatMap store ↔
      ∃ ℓ ∈ order, x ∈ overlay cache store ℓ := by
  rw [List.mem_append, mem_cachedResponse, List.mem_flatMap]
  constructor
  · rintro (⟨ℓ, hℓ, hx⟩ | ⟨ℓ, hℓ, hx⟩)
    · refine ⟨ℓ, hℓ, ?_⟩
      cases hlk : cache.lookup ℓ with
      | none => simp [hlk] at hx
      | some b => simpa [overlay, hlk] using hx
    · exact ⟨ℓ, (mem_missing.1 hℓ).1, by rwa [overlay_of_notMem (mem_missing.1 hℓ).2]⟩
  · rintro ⟨ℓ, hℓ, hx⟩
    by_cases hc : ℓ ∈ cache
    · obtain ⟨b, hb⟩ := UnorderedMap.mem_iff_lookup.1 hc
      exact Or.inl ⟨ℓ, hℓ, by simpa [overlay, hb] using hx⟩
    · exact Or.inr ⟨ℓ, mem_missing.2 ⟨hℓ, hc⟩, by rwa [overlay_of_notMem hc] at hx⟩

/-- **`getCache`.** The buckets that are not cached are downloaded by one call and cached; the response takes the cached
buckets first. -/
theorem getCache_triple {L : LawfulBackend O.storage.backend O.storage.capacity O.storage.blockSize} {store : ℕ → Bucket}
    {calls : List StorageCall} {s : OramState β μ} (hZ : 0 < O.Z) {locations : List ℕ} (dryRun : Bool)
    (hl : ∀ ℓ ∈ locations, ℓ < O.storage.capacity) (hn : O.storage.Ends locations.length)
    (hstore : StorageAdapter.Holds L store calls s.storage) (hz : ∀ ℓ ∈ locations, ℓ ∉ s.cache → (store ℓ).length = O.Z) :
    Triple (fun s' => s' = s) (O.getCache locations dryRun)
      (fun r s' => ∃ order t, order.Perm locations ∧
        StorageAdapter.Holds L store (calls ++ getCalls (missing s.cache order)) t ∧
        s' = { s with
          storage := t, cache := s.cache.assignAll ((missing s.cache order).map fun ℓ => (ℓ, store ℓ)) } ∧
        r = if dryRun then [] else
          order.foldl (fun response ℓ => (s.cache.lookup ℓ).getD [] ++ response) [] ++ (missing s.cache order).flatMap store)
      (fun e s' => L.fault e ∧ ∃ t call, StorageAdapter.Holds L store (calls ++ [call]) t ∧ s' = { s with storage := t }) := by
  unfold Oram.getCache
  apply Triple.bind (Q := fun a s' => a = s ∧ s' = s) (Triple.read fun s' h => ⟨h, h⟩)
  intro a
  apply Triple.of_pure
  intro ha
  subst ha
  apply (iterate_triple locations).bind
  intro order
  apply Triple.of_pure
  intro horder
  change Triple _ (if 0 < (missing a.cache order).length then _ else _) _ _
  have hmem : ∀ ℓ ∈ missing a.cache order, ℓ ∈ locations ∧ ℓ ∉ a.cache := fun ℓ hℓ =>
    ⟨horder.mem_iff.1 (mem_missing.1 hℓ).1, (mem_missing.1 hℓ).2⟩
  refine Triple.ite (fun hpos => ?_) (fun hzero => ?_)
  · have hends : O.storage.Ends (missing a.cache order).length :=
      StorageAdapter.Ends.mono hn ((length_missing_le _ _).trans horder.length_eq.le)
    have hget : Triple (StorageAdapter.Holds L store calls) (O.storage.get (missing a.cache order)) _ _ :=
      StorageAdapter.get_triple (fun ℓ hℓ => hl ℓ (hmem ℓ hℓ).1) hends
    have hcalls : getCalls (missing a.cache order) = [.get (missing a.cache order)] := by
      obtain ⟨ℓ, rest, hcons⟩ := List.exists_cons_of_length_pos hpos
      rw [hcons]
      rfl
    have hcut : ∀ downloaded, downloaded = (missing a.cache order).flatMap store →
        O.cacheDownloaded (missing a.cache order) downloaded 0 [] a.cache =
          a.cache.assignAll ((missing a.cache order).map fun ℓ => (ℓ, store ℓ)) := by
      rintro downloaded rfl
      have hcut := cacheDownloaded_eq hZ (missing a.cache order) 0 a.cache fun ℓ hℓ => hz ℓ (hmem ℓ hℓ).1 (hmem ℓ hℓ).2
      simpa using hcut
    refine Triple.bind ((Triple.zoom (OramState.storageLens β μ) hget a).conseq (fun s' h => ⟨h, h ▸ hstore⟩)
      (fun _ _ h => h) ?_) fun downloaded => Triple.exists_pre fun t => ?_
    · rintro e s' ⟨t, rfl, hf, ht⟩
      exact ⟨hf, t, _, ht, rfl⟩
    · refine Triple.bind (Q := fun _ s' => downloaded = (missing a.cache order).flatMap store ∧
        StorageAdapter.Holds L store (calls ++ getCalls (missing a.cache order)) t ∧ s' = { a with
          storage := t, cache := a.cache.assignAll ((missing a.cache order).map fun ℓ => (ℓ, store ℓ)) })
        (Triple.modify ?_) fun _ => Triple.pure ?_
      · rintro s' ⟨rfl, hd, ht⟩
        refine ⟨hd, hcalls ▸ ht, ?_⟩
        rw [← hcut downloaded hd]
        rfl
      · rintro s' ⟨hd, ht, hs'⟩
        refine ⟨order, t, horder, ht, hs', ?_⟩
        rw [hd]
        cases dryRun <;> rfl
  · have hnil : missing a.cache order = [] := List.eq_nil_of_length_eq_zero (by omega)
    refine Triple.pure ?_
    rintro s' rfl
    refine ⟨order, s'.storage, horder, ?_, ?_, ?_⟩
    · rw [hnil]
      simpa [getCalls] using hstore
    · rw [hnil]
      rfl
    · rw [hnil]
      cases dryRun <;> simp

/-- The tree stays what it was, and the response holds the blocks of the buckets asked for. -/
theorem getCache_refines {locations : List ℕ} (dryRun : Bool) (hl : ∀ ℓ ∈ locations, ℓ < O.storage.capacity)
    (hn : locations.length < 2 ^ 32) (hz : ∀ ℓ ∈ locations, (v.tree ℓ).length = O.Z) :
    Refines L.Sees v (O.getCache locations dryRun)
      (fun r v' => Cached v locations v' ∧ ∀ x, x ∈ r ↔ dryRun = false ∧ ∃ ℓ ∈ locations, x ∈ v.tree ℓ)
      (L.Fails (DownloadFault L v)) := by
  intro w s hs
  obtain ⟨store, hstore, htree⟩ := hs.tree
  change v.tree = overlay s.cache store at htree
  have hlen : ∀ ℓ ∈ locations, ℓ ∉ s.cache → (store ℓ).length = O.Z := fun ℓ hℓ hnot => by
    have hlen := hz ℓ hℓ
    rwa [htree, overlay_of_notMem hnot] at hlen
  have hget := getCache_triple L.Z_pos dryRun hl (StorageAdapter.ends_of_lt hn) hstore hlen
  suffices h : Triple (fun s' => s' = s) (O.getCache locations dryRun)
      (fun r s' => ∃ v', (Cached v locations v' ∧ ∀ x, x ∈ r ↔ dryRun = false ∧ ∃ ℓ ∈ locations, x ∈ v.tree ℓ) ∧ L.Sees v' s')
      (L.Fails (DownloadFault L v)) from h w s rfl
  have hcached : ∀ ℓ, v.cached ℓ = decide (ℓ ∈ s.cache) := fun ℓ => by rw [hs.cached]
  refine hget.conseq (fun _ h => h) ?_ ?_
  · rintro r s' ⟨order, t, horder, ht, rfl, rfl⟩
    have hmiss : (missing s.cache order).Perm (locations.filter fun ℓ => !v.cached ℓ) := by
      have hf : (fun ℓ => !v.cached ℓ) = fun ℓ => decide (ℓ ∉ s.cache) := by
        funext ℓ
        rw [hcached, decide_not]
      rw [hf]
      exact horder.filter _
    refine ⟨_, ⟨⟨missing s.cache order, hmiss, rfl⟩, fun x => ?_⟩, hs.map, hs.stash, ⟨store, ht, ?_⟩, ?_⟩
    · have hresponse : (∃ ℓ ∈ order, x ∈ overlay s.cache store ℓ) ↔ ∃ ℓ ∈ locations, x ∈ v.tree ℓ := by
        simp only [htree, horder.mem_iff]
      cases dryRun with
      | true => simp
      | false =>
        rw [← hresponse, ← mem_response]
        simp
    · exact htree.trans (overlay_assignAll s.cache store order).symm
    · funext ℓ
      change (v.cached ℓ || decide (ℓ ∈ locations)) = decide (ℓ ∈ s.cache.assignAll _)
      rw [hcached, ← Bool.decide_or, decide_eq_decide, UnorderedMap.mem_assignAll, List.map_map]
      simp only [Function.comp_def, List.map_id', mem_missing, horder.mem_iff]
      tauto
  · rintro e s' ⟨hf, t, call, ht, rfl⟩
    exact Or.inr ⟨_, ⟨hf, call, rfl⟩, hs.map, hs.stash, ⟨store, ht, htree⟩, hs.cached⟩

/-! ## Uploads -/

/-- the tree after an upload of the cache -/
def padded (O : Oram β μ) (v : View) (ℓ : ℕ) : Bucket := if v.cached ℓ then O.storage.stored (v.tree ℓ) else v.tree ℓ

/-- every cached bucket passes the checks of the storage -/
def Flushable (O : Oram β μ) (v : View) : Prop := ∀ ℓ, v.cached ℓ = true → O.storage.Accepts (ℓ, v.tree ℓ)

/-- the cached buckets are uploaded by one call, and the cache is empty -/
def Synced (O : Oram β μ) (v v' : View) : Prop :=
  ∃ requests call, (requests.map Prod.fst).Nodup ∧ (∀ ℓ, ℓ ∈ requests.map Prod.fst ↔ v.cached ℓ = true) ∧
    StorageAdapter.IsSetOf O.storage requests call ∧
    v' = { v with tree := padded O v, cached := fun _ => false, calls := v.calls ++ [call] }

/-- the upload failed, and the cache stays -/
def UploadFault (L : LawfulOram O) (v : View) (e : Exception) (v' : View) : Prop :=
  L.storage.fault e ∧ ∃ call, v' = { v with tree := padded O v, calls := v.calls ++ [call] }

theorem mem_cache_toList {cache : UnorderedMap ℕ Bucket} {range : List (ℕ × Bucket)} (hr : range.Perm cache.toList)
    {ℓ : ℕ} : ℓ ∈ range.map Prod.fst ↔ ℓ ∈ cache := by
  rw [(hr.map Prod.fst).mem_iff, UnorderedMap.toList_keys, AList.mem_keys]

/-- the tree of the storage after all cached buckets, or of the padded cache after some, were written -/
theorem overlay_writeAll (S : StorageAdapter β) {cache : UnorderedMap ℕ Bucket} {store : ℕ → Bucket}
    {range done : List (ℕ × Bucket)} (hr : range.Perm cache.toList) (hd : done.Sublist range) (ℓ : ℕ) :
    (if ℓ ∈ cache then S.stored (overlay cache store ℓ) else overlay cache store ℓ) =
        writeAll store (S.storedRequests range) ℓ ∧
      (if ℓ ∈ cache then S.stored (overlay cache store ℓ) else overlay cache store ℓ) =
        overlay (cache.assignAll (S.storedRequests range)) (writeAll store (S.storedRequests done)) ℓ := by
  have hkeys : (range.map Prod.fst).Nodup := ((hr.map Prod.fst).nodup_iff).2 cache.nodup_keys
  have hkeys' : ((S.storedRequests range).map Prod.fst).Nodup := by rwa [StorageAdapter.storedRequests_fst]
  split_ifs with h
  · obtain ⟨b, hb⟩ := UnorderedMap.mem_iff_lookup.1 h
    have hov : overlay cache store ℓ = b := by rw [overlay, hb]; rfl
    have hm : (ℓ, S.stored b) ∈ S.storedRequests range :=
      List.mem_map.2 ⟨(ℓ, b), hr.mem_iff.2 (UnorderedMap.mem_toList.2 hb), rfl⟩
    rw [hov]
    refine ⟨(writeAll_of_mem _ _ hkeys' hm).symm, ?_⟩
    rw [overlay, UnorderedMap.lookup_assignAll_of_mem _ _ hkeys' hm]
    rfl
  · have hn : ℓ ∉ range.map Prod.fst := fun hm => h ((mem_cache_toList hr).1 hm)
    have hn' : ℓ ∉ (S.storedRequests range).map Prod.fst := by rwa [StorageAdapter.storedRequests_fst]
    have hnd : ℓ ∉ (S.storedRequests done).map Prod.fst := by
      rw [StorageAdapter.storedRequests_fst]
      exact fun hm => hn ((hd.map Prod.fst).subset hm)
    refine ⟨by rw [overlay_of_notMem h, writeAll_of_notMem _ _ hn'], ?_⟩
    rw [overlay, overlay, UnorderedMap.lookup_assignAll_of_notMem _ _ _ hn', writeAll_of_notMem _ _ hnd]

/-- **`syncCache`.** The cached buckets reach the storage with their payloads padded. If the provider fails, the cache stays
and hides what was written. -/
theorem syncCache_triple {L : LawfulBackend O.storage.backend O.storage.capacity O.storage.blockSize} {store : ℕ → Bucket}
    {calls : List StorageCall} {s : OramState β μ} (hc : O.storage.crypto.Lawful)
    (hstore : StorageAdapter.Holds L store calls s.storage)
    (haccept : ∀ ℓ b, s.cache.lookup ℓ = some b → O.storage.Accepts (ℓ, b)) :
    Triple (fun s' => s' = s) O.syncCache
      (fun _ s' => ∃ range t call, range.Perm s.cache.toList ∧ StorageAdapter.IsSetOf O.storage range call ∧
        StorageAdapter.Holds L (writeAll store (O.storage.storedRequests range)) (calls ++ [call]) t ∧
        s' = { s with storage := t, cache := ∅ })
      (fun e s' => L.fault e ∧ ∃ range done t call, range.Perm s.cache.toList ∧ done.Sublist range ∧
        StorageAdapter.Holds L (writeAll store (O.storage.storedRequests done)) (calls ++ [call]) t ∧
        s' = { s with storage := t, cache := s.cache.assignAll (O.storage.storedRequests range) }) := by
  unfold Oram.syncCache
  apply Triple.bind (Q := fun a s' => a = s ∧ s' = s) (Triple.read fun s' h => ⟨h, h⟩)
  intro a
  apply Triple.of_pure
  intro ha
  subst ha
  apply (iterate_triple a.cache.toList).bind
  intro range
  apply Triple.of_pure
  intro hr
  have haccept : ∀ r ∈ range, O.storage.Accepts r := fun r hm =>
    haccept r.1 r.2 (UnorderedMap.mem_toList.1 (hr.mem_iff.1 hm))
  rw [StorageAdapter.padRange_of_accepts haccept]
  refine Triple.bind (Q := fun _ s' => s' = { a with cache := a.cache.assignAll (O.storage.storedRequests range) })
    (Triple.modify fun s' h => by rw [h]) fun _ => ?_
  have hset : Triple (StorageAdapter.Holds L store calls) (O.storage.set range) _ _ := StorageAdapter.set_triple hc haccept
  refine Triple.bind ((Triple.zoom (OramState.storageLens β μ) hset
    { a with cache := a.cache.assignAll (O.storage.storedRequests range) }).conseq (fun s' h => ⟨h, h ▸ hstore⟩)
    (fun _ _ h => h) ?_) fun _ => Triple.modify ?_
  · rintro e s' ⟨t, rfl, hf, done, call, hd, _, ht⟩
    exact ⟨hf, range, done, t, call, hr, hd, ht, rfl⟩
  · rintro s' ⟨t, rfl, call, hcall, ht⟩
    exact ⟨range, t, call, hr, hcall, ht, rfl⟩

/-- The tree stays what it was, up to padding, also if the provider fails. -/
theorem syncCache_refines (hv : Flushable O v) :
    Refines L.Sees v O.syncCache (fun _ v' => Synced O v v') (L.Fails (UploadFault L v)) := by
  intro w s hs
  obtain ⟨store, hstore, htree⟩ := hs.tree
  change v.tree = overlay s.cache store at htree
  have hcached : ∀ ℓ, v.cached ℓ = true ↔ ℓ ∈ s.cache := fun ℓ => by rw [hs.cached, decide_eq_true_eq]
  have hpadded : padded O v = fun ℓ =>
      if ℓ ∈ s.cache then O.storage.stored (overlay s.cache store ℓ) else overlay s.cache store ℓ := by
    funext ℓ
    simp only [padded, hcached, htree]
  have hsync := syncCache_triple (L := L.storage) L.crypto hstore fun ℓ b hb => by
    have htr : v.tree ℓ = b := by rw [htree, overlay, hb]; rfl
    exact htr ▸ hv ℓ ((hcached ℓ).2 (UnorderedMap.mem_iff_lookup.2 ⟨b, hb⟩))
  suffices h : Triple (fun s' => s' = s) O.syncCache (fun _ s' => ∃ v', Synced O v v' ∧ L.Sees v' s')
      (L.Fails (UploadFault L v)) from h w s rfl
  refine hsync.conseq (fun _ h => h) ?_ ?_
  · rintro _ s' ⟨range, t, call, hr, hcall, ht, rfl⟩
    have hkeys : (range.map Prod.fst).Nodup := ((hr.map Prod.fst).nodup_iff).2 s.cache.nodup_keys
    refine ⟨_, ⟨range, call, hkeys, fun ℓ => by rw [mem_cache_toList hr, hcached], hcall, rfl⟩, hs.map, hs.stash, ⟨_, ht, ?_⟩, ?_⟩
    · rw [hpadded]
      funext ℓ
      exact (overlay_writeAll O.storage hr (List.Sublist.refl _) ℓ).1
    · funext ℓ
      exact (decide_eq_false (AList.notMem_empty ℓ)).symm
  · rintro e s' ⟨hf, range, done, t, call, hr, hd, ht, rfl⟩
    refine Or.inr ⟨_, ⟨hf, call, rfl⟩, hs.map, hs.stash, ⟨_, ht, ?_⟩, ?_⟩
    · rw [hpadded]
      funext ℓ
      exact (overlay_writeAll O.storage hr hd ℓ).2
    · funext ℓ
      change v.cached ℓ = decide (ℓ ∈ s.cache.assignAll (O.storage.storedRequests range))
      rw [hs.cached, decide_eq_decide, UnorderedMap.mem_assignAll, StorageAdapter.storedRequests_fst, mem_cache_toList hr]
      simp

/-! ## Reading a path -/

/-- add the real blocks of a list to a stash, in order -/
def absorb (stash : ℕ → Option Bytes) (blocks : List Block) : ℕ → Option Bytes :=
  blocks.foldl (fun stash b => if b.1 = ulongMax then stash else emplaced stash b.1 b.2) stash

theorem absorb_append (stash : ℕ → Option Bytes) (a b : List Block) :
    absorb stash (a ++ b) = absorb (absorb stash a) b := List.foldl_append

theorem absorb_cons (stash : ℕ → Option Bytes) (b : Block) (blocks : List Block) :
    absorb stash (b :: blocks) = absorb (if b.1 = ulongMax then stash else emplaced stash b.1 b.2) blocks := rfl

/-- a block of the stash is not overridden -/
theorem absorb_of_some {stash : ℕ → Option Bytes} {k : ℕ} {d : Bytes} (h : stash k = some d) (blocks : List Block) :
    absorb stash blocks k = some d := by
  induction blocks generalizing stash with
  | nil => exact h
  | cons b blocks ih =>
    rw [absorb_cons]
    refine ih ?_
    split_ifs
    · exact h
    · rw [emplaced, if_neg]
      · exact h
      · rintro ⟨rfl, hn⟩
        rw [h] at hn
        cases hn

/-- what a stash holds afterwards it held before, or it is one of the real blocks -/
theorem of_absorb {stash : ℕ → Option Bytes} {blocks : List Block} {k : ℕ} {d : Bytes}
    (h : absorb stash blocks k = some d) : stash k = some d ∨ (k, d) ∈ blocks ∧ k ≠ ulongMax := by
  induction blocks generalizing stash with
  | nil => exact Or.inl h
  | cons b blocks ih =>
    rw [absorb_cons] at h
    rcases ih h with h' | ⟨h', hk⟩
    · split_ifs at h' with hb
      · exact Or.inl h'
      · rw [emplaced] at h'
        split_ifs at h' with hc
        · obtain ⟨rfl, -⟩ := hc
          cases h'
          exact Or.inr ⟨List.mem_cons_self, hb⟩
        · exact Or.inl h'
    · exact Or.inr ⟨List.mem_cons_of_mem _ h', hk⟩

/-- every real block of the list is in the stash afterwards, with this payload or another -/
theorem absorb_of_mem {stash : ℕ → Option Bytes} {blocks : List Block} {k : ℕ} {d : Bytes} (h : (k, d) ∈ blocks)
    (hk : k ≠ ulongMax) : ∃ d', absorb stash blocks k = some d' := by
  induction blocks generalizing stash with
  | nil => simp at h
  | cons b blocks ih =>
    rw [absorb_cons]
    rcases List.mem_cons.1 h with rfl | h
    · rw [if_neg hk]
      cases hs : stash k with
      | none => exact ⟨d, absorb_of_some (by simp [emplaced, hs]) _⟩
      | some d' => exact ⟨d', absorb_of_some (by simp [emplaced, hs]) _⟩
    · exact ih h

/-- the stash was full after some of the blocks -/
def AbsorbFault (O : Oram β μ) (v : View) (blocks : List Block) (e : Exception) (v' : View) : Prop :=
  IsOverflow e ∧ ∃ done b rest, blocks = done ++ b :: rest ∧ b.1 ≠ ulongMax ∧ StashFull O (absorb v.stash done) b.1 ∧
    v' = { v with stash := absorb v.stash done }

theorem addBlocks_refines (blocks : List Block) :
    Refines L.Sees v (O.addBlocks blocks) (fun _ v' => v' = { v with stash := absorb v.stash blocks })
      (L.Fails (AbsorbFault O v blocks)) := by
  refine (Refines.forM (fun rest v' => ∃ done, done ++ rest = blocks ∧ v' = { v with stash := absorb v.stash done })
    ?_ ⟨[], rfl, rfl⟩).post ?_
  · rintro b rest v' - ⟨done, hdone, rfl⟩
    have hb : done ++ [b] ++ rest = blocks := by simpa using hdone
    refine Triple.ite (fun hne => ?_) (fun heq => ?_)
    · refine refines_mono (stashAdd_refines b.1 b.2) ?_ ?_
      · rintro _ v' rfl
        refine ⟨done ++ [b], hb, ?_⟩
        rw [absorb_append, absorb_cons, if_neg hne]
        rfl
      · rintro e v' ⟨⟨he, hfull⟩, rfl⟩
        exact ⟨he, done, b, rest, hdone.symm, hne, hfull, rfl⟩
    · refine Refines.pure ⟨done ++ [b], hb, ?_⟩
      rw [absorb_append, absorb_cons, if_pos (not_not.1 heq)]
      rfl
  · rintro _ v' ⟨done, hdone, rfl⟩
    rw [List.append_nil] at hdone
    rw [hdone]

/-- the path to a leaf is cached, and the stash holds its blocks -/
def PathRead (O : Oram β μ) (v : View) (leaf : ℕ) (v' : View) : Prop :=
  ∃ blocks missing, (∀ x, x ∈ blocks ↔ ∃ ℓ ∈ path O.height leaf, x ∈ v.tree ℓ) ∧
    missing.Perm ((path O.height leaf).filter fun ℓ => !v.cached ℓ) ∧
    v' = { v with stash := absorb v.stash blocks, cached := fun ℓ => v.cached ℓ || decide (ℓ ∈ path O.height leaf),
                  calls := v.calls ++ getCalls missing }

/-- the provider failed or the stash was full: some blocks of the path are in the stash as well as in the tree -/
def PathFault (L : LawfulOram O) (v : View) (leaf : ℕ) (e : Exception) (v' : View) : Prop :=
  (L.storage.fault e ∨
      IsOverflow e ∧ ∃ b, (∃ ℓ ∈ path O.height leaf, b ∈ v.tree ℓ) ∧ b.1 ≠ ulongMax ∧ StashFull O v'.stash b.1) ∧
    ∃ blocks cached calls, (∀ x ∈ blocks, ∃ ℓ ∈ path O.height leaf, x ∈ v.tree ℓ) ∧
      (∀ ℓ, cached ℓ = true → v.cached ℓ = true ∨ ℓ ∈ path O.height leaf) ∧
      v' = { v with stash := absorb v.stash blocks, cached := cached, calls := calls }

/-- **`readPath`.** -/
theorem readPath_refines {leaf : ℕ} (hf : leaf < 2 ^ (O.height - 1))
    (hz : ∀ ℓ < O.storage.capacity, (v.tree ℓ).length = O.Z) :
    Refines L.Sees v (O.readPath leaf [] true) (fun _ v' => PathRead O v leaf v') (L.Fails (PathFault L v leaf)) := by
  have hperm := L.pathLocations_perm hf
  have hlt : ∀ ℓ ∈ O.pathLocations leaf [], ℓ < O.storage.capacity := fun ℓ hℓ =>
    L.mem_path_capacity hf (hperm.mem_iff.1 hℓ)
  unfold Oram.readPath
  refine Triple.ite (fun _ => ?_) (fun h => absurd rfl h)
  refine Refines.bind (refines_mono (getCache_refines false hlt (L.pathLocations_length hf) fun ℓ hℓ => hz ℓ (hlt ℓ hℓ))
    (fun _ _ h => h) ?_) ?_
  · rintro e v' ⟨he, call, rfl⟩
    exact ⟨Or.inl he, [], v.cached, _, by simp, fun ℓ h => Or.inl h, rfl⟩
  · rintro blocks v' ⟨⟨missing, hmiss, rfl⟩, hblocks⟩
    simp only [true_and, hperm.mem_iff] at hblocks
    simp only [hperm.mem_iff]
    refine Refines.bind (refines_mono (addBlocks_refines blocks) (fun _ _ h => h) ?_) ?_
    · rintro e v' ⟨he, done, b, rest, hdone, hne, hfull, rfl⟩
      have hmem : ∀ x ∈ done ++ b :: rest, ∃ ℓ ∈ path O.height leaf, x ∈ v.tree ℓ := fun x hx => (hblocks x).1 (hdone ▸ hx)
      refine ⟨Or.inr ⟨he, b, hmem b (by simp), hne, hfull⟩, done, _, _, fun x hx => hmem x (List.mem_append_left _ hx),
        fun ℓ h => ?_, rfl⟩
      simpa using h
    · rintro _ v' rfl
      exact Refines.pure ⟨blocks, missing, hblocks, hmiss.trans (hperm.filter _), rfl⟩

end LawfulOram

end PathOram
