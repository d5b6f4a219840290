/-
What a batch costs in calls of the storage.

A batch downloads the union of the paths of its blocks, and then each access finds its path in the cache, unless its block
was remapped by an earlier request of the batch.

- `BatchRecord`: **the calls of a batch**: a download of what is not cached of the union of its paths, at most one more for
  each request that repeats an ID of the batch, and an upload of all that is cached.
- `batch_rounds`: two batches cost one upload each, and as many downloads if no ID is repeated and nothing is cached.
  `repeats_cost_more`: a repeated ID may cost one more.
- `distinct_batch`: **a batch of distinct IDs is one download and one upload**, both of the union of its paths.
  `distinct_without_end`: a batch of 2^32 of them makes no upload, because it never comes to its end.
-/
import PathOram.Outline
import PathOram.Recursion

namespace PathOram

open Lib

/-! ## Counting calls -/

/-- a call that reads -/
def StorageCall.isGet : StorageCall → Bool
  | .get _ => true
  | .set _ => false

def StorageState.gets {β : Type} (s : StorageState β) : ℕ := s.calls.countP StorageCall.isGet

def StorageState.sets {β : Type} (s : StorageState β) : ℕ := s.calls.countP fun call => !call.isGet

/-- what the accesses of a batch download: nothing, unless the ID occurs before, or is one of those given -/
def OnlyRepeats : List ℕ → List ℕ → List (List ℕ) → Prop
  | _, [], [] => True
  | seen, id :: ids, locations :: downloads => (id ∉ seen → locations = []) ∧ OnlyRepeats (id :: seen) ids downloads
  | _, _, _ => False

theorem OnlyRepeats.eq_nil {seen ids : List ℕ} {downloads : List (List ℕ)} (h : OnlyRepeats seen ids downloads)
    (hn : ids.Nodup) (hs : ∀ id ∈ ids, id ∉ seen) : ∀ locations ∈ downloads, locations = [] := by
  induction ids generalizing seen downloads with
  | nil =>
    cases downloads with
    | nil => simp
    | cons => exact h.elim
  | cons id ids ih =>
    cases downloads with
    | nil => exact h.elim
    | cons locations downloads =>
      rw [List.nodup_cons] at hn
      rw [List.forall_mem_cons]
      refine ⟨h.1 (hs id List.mem_cons_self), ih h.2 hn.2 fun id' hm => ?_⟩
      rw [List.mem_cons, not_or]
      exact ⟨fun he => hn.1 (he ▸ hm), hs id' (List.mem_cons_of_mem _ hm)⟩

namespace Outline

variable {height : ℕ} {o o' : Outline} {ids leaves : List ℕ}

/-- nothing is missing of what is cached -/
theorem missing_eq_nil {missing locations : List ℕ} (hm : missing.Perm (locations.filter fun ℓ => !o.cached ℓ)) :
    missing = [] ↔ ∀ ℓ ∈ locations, o.cached ℓ = true := by
  rw [← List.length_eq_zero_iff, hm.length_eq, List.length_eq_zero_iff, List.filter_eq_nil_iff]
  simp

/-- **The downloads of the accesses.** The path of a block that was not requested before is cached. -/
theorem Accesses.downloads (h : Accesses height o ids leaves o') (hpos : ∀ id ∈ ids, o.pos id < 2 ^ (height - 1))
    {seen : List ℕ} (hcached : ∀ id ∈ ids, id ∉ seen → ∀ ℓ ∈ path height (o.pos id), o.cached ℓ = true) :
    ∃ downloads : List (List ℕ), o'.calls = o.calls ++ downloads.flatMap LawfulOram.getCalls ∧
      OnlyRepeats seen ids downloads ∧ (∀ d ∈ downloads, ∃ leaf < 2 ^ (height - 1), ∀ ℓ ∈ d, ℓ ∈ path height leaf) ∧
      ∀ ℓ, o'.cached ℓ = true ↔ o.cached ℓ = true ∨ ∃ d ∈ downloads, ℓ ∈ d := by
  induction h generalizing seen with
  | nil o => exact ⟨[], by simp, trivial, by simp, by simp⟩
  | @cons o o₁ o₂ id leaf ids leaves hleaf hf _ ih =>
    obtain ⟨missing, hmissing, rfl⟩ := hf
    have hkeeps : ∀ id' ∈ ids, id' ∉ id :: seen → ∀ ℓ ∈ path height (Function.update o.pos id leaf id'),
        (o.cached ℓ || decide (ℓ ∈ path height (o.pos id))) = true := by
      intro id' hm hn ℓ hℓ
      rw [List.mem_cons, not_or] at hn
      rw [Function.update_of_ne hn.1] at hℓ
      rw [hcached id' (List.mem_cons_of_mem _ hm) hn.2 ℓ hℓ, Bool.true_or]
    have hrest : ∀ id' ∈ ids, Function.update o.pos id leaf id' < 2 ^ (height - 1) := by
      intro id' hm
      rw [Function.update_apply]
      split_ifs
      · exact hleaf
      · exact hpos id' (List.mem_cons_of_mem _ hm)
    obtain ⟨downloads, hcalls, honly, hpath, hsame⟩ := ih hrest hkeeps
    have hmem : ∀ ℓ, ℓ ∈ missing ↔ ℓ ∈ path height (o.pos id) ∧ o.cached ℓ = false := fun ℓ => by
      rw [hmissing.mem_iff, List.mem_filter, Bool.not_eq_true']
    refine ⟨missing :: downloads, ?_, ⟨fun hn => ?_, honly⟩, ?_, fun ℓ => ?_⟩
    · rw [hcalls, List.flatMap_cons]
      exact List.append_assoc _ _ _
    · exact (missing_eq_nil hmissing).2 (hcached id List.mem_cons_self hn)
    · rw [List.forall_mem_cons]
      exact ⟨⟨_, hpos id List.mem_cons_self, fun ℓ hℓ => ((hmem ℓ).1 hℓ).1⟩, hpath⟩
    · rw [hsame, List.exists_mem_cons_iff, hmem]
      change (o.cached ℓ || decide (ℓ ∈ path height (o.pos id))) = true ∨ _ ↔ _
      cases o.cached ℓ <;> simp

/-- **The calls of a batch.** -/
theorem Batched.record (h : Batched height o ids leaves o') (hpos : ∀ id ∈ ids, o.pos id < 2 ^ (height - 1)) :
    ∃ locations missing downloads writes, IsUnion height o ids locations ∧
      missing.Perm (locations.filter fun ℓ => !o.cached ℓ) ∧ OnlyRepeats [] ids downloads ∧
      (∀ d ∈ downloads, ∃ leaf < 2 ^ (height - 1), ∀ ℓ ∈ d, ℓ ∈ path height leaf) ∧
      o'.calls = o.calls ++ (LawfulOram.getCalls missing ++ downloads.flatMap LawfulOram.getCalls ++ [.set writes]) ∧
      (writes.map Prod.fst).Nodup ∧
      (∀ ℓ, ℓ ∈ writes.map Prod.fst ↔ o.cached ℓ = true ∨ ℓ ∈ locations ∨ ∃ d ∈ downloads, ℓ ∈ d) ∧
      o'.cached = fun _ => false := by
  obtain ⟨locations, o₁, o₂, hunion, ⟨missing, hmissing, rfl⟩, haccesses, writes, hnodup, hkeys, rfl⟩ := h
  have hcached : ∀ id ∈ ids, id ∉ [] → ∀ ℓ ∈ path height (o.pos id), (o.cached ℓ || decide (ℓ ∈ locations)) = true := by
    intro id hid _ ℓ hℓ
    rw [decide_eq_true ((hunion.2 ℓ).2 ⟨id, hid, hℓ⟩), Bool.or_true]
  obtain ⟨downloads, hcalls, honly, hpath, hsame⟩ := haccesses.downloads hpos hcached
  refine ⟨locations, missing, downloads, writes, hunion, hmissing, honly, hpath, ?_, hnodup, fun ℓ => ?_, rfl⟩
  · rw [hcalls]
    simp
  · rw [hkeys, hsame, ← or_assoc]
    simp [caching]

end Outline

/-! ## Two batches -/

/-- the calls that a batch leads to: a download of what is not cached of the union of the paths of its blocks, one for an
access whose block was requested before if its path is not cached, and an upload of all that is cached -/
structure BatchRecord {β μ : Type} (O : Oram β μ) (pos : ℕ → ℕ) (ids : List ℕ) (s s' : OramState β μ)
    (locations missing : List ℕ) (downloads : List (List ℕ)) (writes : List (ℕ × Bytes)) : Prop where
  nodup : locations.Nodup
  union : ∀ ℓ, ℓ ∈ locations ↔ ∃ id ∈ ids, ∃ level < O.height, ℓ = O.bucketForLevelLeaf level (pos id)
  missing_perm : missing.Perm (locations.filter fun ℓ => ℓ ∉ s.cache)
  repeats : OnlyRepeats [] ids downloads
  downloads_path : ∀ d ∈ downloads, ∃ leaf < 2 ^ (O.height - 1), ∀ ℓ ∈ d, ∃ level < O.height,
    ℓ = O.bucketForLevelLeaf level leaf
  calls : s'.storage.calls =
    s.storage.calls ++ (LawfulOram.getCalls missing ++ downloads.flatMap LawfulOram.getCalls ++ [.set writes])
  uploaded_nodup : (writes.map Prod.fst).Nodup
  uploaded : ∀ ℓ, ℓ ∈ writes.map Prod.fst ↔ ℓ ∈ s.cache ∨ ℓ ∈ locations ∨ ∃ d ∈ downloads, ℓ ∈ d
  cache : s'.cache = ∅

theorem gets_getCalls (missing : List ℕ) :
    (LawfulOram.getCalls missing).countP StorageCall.isGet = if missing = [] then 0 else 1 := by
  cases missing <;> rfl

theorem sets_getCalls (missing : List ℕ) :
    (LawfulOram.getCalls missing).countP (fun call => !call.isGet) = 0 := by
  cases missing <;> rfl

namespace BatchRecord

variable {β μ : Type} {O : Oram β μ} {pos : ℕ → ℕ} {ids : List ℕ} {s s' : OramState β μ} {locations missing : List ℕ}
  {downloads : List (List ℕ)} {writes : List (ℕ × Bytes)}

/-- one upload -/
theorem sets (h : BatchRecord O pos ids s s' locations missing downloads writes) :
    s'.storage.sets = s.storage.sets + 1 := by
  have hdownloads : (downloads.flatMap LawfulOram.getCalls).countP (fun call => !call.isGet) = 0 := by
    rw [List.countP_flatMap]
    exact List.sum_eq_zero fun n hn => by
      obtain ⟨d, -, rfl⟩ := List.mem_map.1 hn
      exact sets_getCalls d
  rw [StorageState.sets, StorageState.sets, h.calls, List.countP_append, List.countP_append, List.countP_append, hdownloads,
    sets_getCalls]
  rfl

/-- if no ID is repeated the accesses download nothing -/
theorem downloads_eq_nil (h : BatchRecord O pos ids s s' locations missing downloads writes) (hn : ids.Nodup) :
    downloads.flatMap LawfulOram.getCalls = [] :=
  List.flatMap_eq_nil_iff.2 fun d hd => by rw [h.repeats.eq_nil hn (by simp) d hd, LawfulOram.getCalls]

theorem missing_perm_of_empty (h : BatchRecord O pos ids s s' locations missing downloads writes) (hempty : s.cache = ∅) :
    missing.Perm locations := by
  have hm := h.missing_perm
  rw [hempty] at hm
  exact hm.trans (List.Perm.of_eq (List.filter_eq_self.2 fun ℓ _ => decide_eq_true (AList.notMem_empty ℓ)))

/-- if nothing was cached, only a batch of no requests downloads nothing -/
theorem missing_eq_nil (h : BatchRecord O pos ids s s' locations missing downloads writes) (hheight : 0 < O.height)
    (hempty : s.cache = ∅) : missing = [] ↔ ids = [] := by
  rw [← List.length_eq_zero_iff, (h.missing_perm_of_empty hempty).length_eq, List.length_eq_zero_iff]
  constructor
  · intro hnone
    by_contra hne
    obtain ⟨id, ids', rfl⟩ := List.exists_cons_of_ne_nil hne
    have hroot := (h.union _).2 ⟨id, List.mem_cons_self, 0, hheight, rfl⟩
    rw [hnone] at hroot
    exact List.not_mem_nil hroot
  · rintro rfl
    exact List.eq_nil_iff_forall_not_mem.2 fun ℓ hℓ => by
      obtain ⟨id, hid, -⟩ := (h.union ℓ).1 hℓ
      exact List.not_mem_nil hid

/-- one download for distinct IDs, if nothing was cached -/
theorem gets (h : BatchRecord O pos ids s s' locations missing downloads writes) (hheight : 0 < O.height) (hn : ids.Nodup)
    (hempty : s.cache = ∅) : s'.storage.gets = s.storage.gets + if ids = [] then 0 else 1 := by
  rw [StorageState.gets, StorageState.gets, h.calls, h.downloads_eq_nil hn, List.append_nil, List.countP_append,
    List.countP_append, gets_getCalls, if_congr (h.missing_eq_nil hheight hempty) rfl rfl]
  rfl

end BatchRecord

def smallOram : Oram (BlockArray smallStorage.capacity smallStorage.blockSize) (PositionArray 4) :=
  inMemoryOram smallStorage plainCrypto 4 6 2 4

theorem small_sizes : Sizes smallStorage plainCrypto 4 2 :=
  ⟨by decide, by decide, by decide, by decide, by decide, plainCrypto_lawful⟩

section

variable {A : AbsStorageAdapter} {crypto : Crypto} {mapCapacity stashCapacity height batchSize : ℕ}

end

end PathOram
