/-
The ORAM over in-memory adapters is a map, and keeps the Path ORAM invariant.

- `run_answers`: **every run of calls with batches of fewer than 2^32 requests replies like a map or overflows the stash**,
  whatever the random generator and the hash tables choose; with a longer batch it never returns (`batch_without_end`).
- `run_invariant`: **the Path ORAM invariant holds after every run that returns**: every ID that was put has one record in
  the stash and the buckets together, a record in a bucket lies on the path of its leaf, and the cache is empty.
-/
import PathOram.InMemory

namespace PathOram

open Lib

/-! ## Written IDs -/

/-- some call put the ID -/
def EverPut (calls : List Call) (id : ℕ) : Prop := ∃ op ∈ calls.flatMap Call.ops, op.read = false ∧ op.block = id

theorem after_ne_none {c : Contents} {ops : List Op} {id : ℕ} :
    c.after ops id ≠ none ↔ c id ≠ none ∨ ∃ op ∈ ops, op.read = false ∧ op.block = id := by
  induction ops generalizing c with
  | nil => simp
  | cons op ops ih =>
    rw [Contents.after_cons, ih, List.exists_mem_cons_iff, ← or_assoc]
    refine or_congr_left ?_
    cases hread : op.read with
    | true => simp [c.apply_read hread]
    | false =>
      rw [c.apply_write hread, Function.update_apply]
      by_cases hid : id = op.block
      · simp [hid]
      · simp [hid, Ne.symm hid]

/-- the IDs that were put are those with a payload -/
theorem everPut_eq (calls : List Call) :
    EverPut calls = fun id => Contents.after (fun _ => none) (calls.flatMap Call.ops) id ≠ none := by
  funext id
  rw [eq_iff_iff, after_ne_none]
  simp [EverPut]

/-! ## The two results -/

section

variable {A : AbsStorageAdapter} {crypto : Crypto} {mapCapacity stashCapacity height batchSize : ℕ}

/-- a run after the construction, seen through the contract -/
theorem constructed_triple (h : Sizes A crypto mapCapacity height) (hsmall : 2 ^ height * A.Z ≤ 2 ^ 31)
    {calls : List Call}
    (hcalls : ∀ call ∈ calls, call.Valid (inMemoryOram A crypto mapCapacity stashCapacity height batchSize)) :
    Triple (fun s => Fresh s) ((inMemoryOram A crypto mapCapacity stashCapacity height batchSize).session calls)
      (fun replies s => Contents.RepliesAll (fun _ => none) calls replies ∧
        (inMemoryOram_lawful h stashCapacity batchSize).HoldsOnce
          (Contents.after (fun _ => none) (calls.flatMap Call.ops)) s)
      (fun e _ => LawfulOram.IsOverflow e ∧ stashCapacity < 2 ^ height * A.Z ∨
        e = .diverges ∧ ∃ call ∈ calls, call.Endless) := by
  have hconstruct := (LawfulOram.construct_triple (inMemoryOram_lawful h stashCapacity batchSize)).conseq
    (fun _ hs => inMemoryOram_fresh h stashCapacity batchSize hs) (fun _ _ hs => hs) fun e _ he =>
      (Or.inl (inMemoryOram_throws h stashCapacity batchSize he) :
        LawfulOram.IsOverflow e ∧ stashCapacity < 2 ^ height * A.Z ∨ e = .diverges ∧ ∃ call ∈ calls, call.Endless)
  have hrun := LawfulOram.run_triple (L := inMemoryOram_lawful h stashCapacity batchSize) (c := fun _ => none) hsmall hcalls
  exact hconstruct.bind fun _ => hrun.conseq (fun _ hs => hs) (fun _ _ hs => hs) fun _ _ he =>
    he.imp_left (inMemoryOram_throws h stashCapacity batchSize)

/-- the record of a run that returned -/
theorem constructed_run (h : Sizes A crypto mapCapacity height) (hsmall : 2 ^ height * A.Z ≤ 2 ^ 31)
    {s₀ s : OramState (BlockArray A.capacity A.blockSize) (PositionArray mapCapacity)} (hfresh : Fresh s₀) {w₀ w : World}
    {calls : List Call} {replies : List Reply}
    (hcalls : ∀ call ∈ calls, call.Valid (inMemoryOram A crypto mapCapacity stashCapacity height batchSize))
    (hrun : ((inMemoryOram A crypto mapCapacity stashCapacity height batchSize).session calls).exec w₀ s₀ =
      (.ok replies, w, s)) :
    Contents.RepliesAll (fun _ => none) calls replies ∧
      (inMemoryOram_lawful h stashCapacity batchSize).HoldsOnce
        (Contents.after (fun _ => none) (calls.flatMap Call.ops)) s :=
  (constructed_triple h hsmall hcalls).ok hfresh hrun

/-- **The ORAM is a map.** After the construction of an ORAM over in-memory adapters, every sequence of valid calls whose
batches have fewer than 2^32 requests overflows the stash or returns and replies like a map from IDs to payloads: a get
returns the payload last put up to zero padding, or nothing if there was none. With a longer batch it never returns. -/
theorem run_answers (h : Sizes A crypto mapCapacity height) (hsmall : 2 ^ height * A.Z ≤ 2 ^ 31)
    {s₀ s : OramState (BlockArray A.capacity A.blockSize) (PositionArray mapCapacity)} (hfresh : Fresh s₀) {w₀ w : World}
    {calls : List Call} {r : Except Exception (List Reply)}
    (hcalls : ∀ call ∈ calls, call.Valid (inMemoryOram A crypto mapCapacity stashCapacity height batchSize))
    (hrun : ((inMemoryOram A crypto mapCapacity stashCapacity height batchSize).session calls).exec w₀ s₀ = (r, w, s)) :
    ((∀ call ∈ calls, call.batch.length < 2 ^ 32) →
      (∃ replies, r = .ok replies ∧ Contents.RepliesAll (fun _ => none) calls replies) ∨
        ∃ capacity, r = .error (.overCapacity capacity)) ∧
    ((∃ call ∈ calls, 2 ^ 32 ≤ call.batch.length) → ∀ replies, r ≠ .ok replies) := by
  constructor
  · intro hshort
    rcases r with e | replies
    · rcases (constructed_triple h hsmall hcalls).error hfresh hrun with ⟨⟨capacity, he⟩, -⟩ | ⟨-, call, hm, hlong⟩
      · exact Or.inr ⟨capacity, congrArg _ he⟩
      · exact absurd (hshort call hm) (not_lt.2 hlong)
    · exact Or.inl ⟨replies, rfl, (constructed_run h hsmall hfresh hcalls hrun).1⟩
  · rintro ⟨call, hm, hlong⟩ replies rfl
    exact (LawfulOram.session_ends calls).ok trivial hrun call hm hlong

/-- a put and a get on the tiny ORAM -/
theorem tiny_session :
    (((inMemoryOram tinyStorage plainCrypto 2 6 1 4).session [.put 0 [1], .get 0]).exec zeroWorld (zeroState tinyStorage 2)).1 =
      .ok [.done, .got (1 :: List.replicate 31 0)] := by decide +kernel

theorem run_answers_tiny :
    ∃ replies, (((inMemoryOram tinyStorage plainCrypto 2 6 1 4).session [.put 0 [1], .get 0]).exec zeroWorld
        (zeroState tinyStorage 2)).1 = .ok replies ∧
      Contents.RepliesAll (fun _ => none) [.put 0 [1], .get 0] replies := by
  have hanswers := (run_answers tiny_sizes (by decide) (zeroState_fresh tinyStorage 2) (by decide +kernel)
    (Prog.exec_eq tiny_session)).1 (by decide)
  rcases hanswers with ⟨replies, hok, hreplies⟩ | ⟨capacity, hthrown⟩
  · exact ⟨replies, tiny_session.trans hok, hreplies⟩
  · exact nomatch hthrown

/-- the requests of an endless batch -/
def endlessReads : List Block := List.replicate (2 ^ 32) (0, [])

theorem length_endlessReads : endlessReads.length = 2 ^ 32 := List.length_replicate

theorem endlessReads_valid {β μ : Type} {O : Oram β μ} (hblocks : 0 < 2 ^ O.height * O.Z) (hbatch : 2 ^ 32 ≤ O.batchSize) :
    ∀ call ∈ [Call.multiple endlessReads], call.Valid O := by
  intro call hcall
  rw [List.mem_singleton.1 hcall]
  refine ⟨fun op hop => ?_, length_endlessReads.trans_le hbatch⟩
  obtain ⟨request, hrequest, rfl⟩ := List.mem_map.1 hop
  rw [List.eq_of_mem_replicate hrequest]
  exact ⟨hblocks, Nat.zero_le _⟩

/-- with room for all blocks, a session with an endless batch does not end -/
theorem session_diverges (h : Sizes A crypto mapCapacity height) (hsmall : 2 ^ height * A.Z ≤ 2 ^ 31)
    (hroom : 2 ^ height * A.Z ≤ stashCapacity)
    {s₀ : OramState (BlockArray A.capacity A.blockSize) (PositionArray mapCapacity)} (hfresh : Fresh s₀) (w₀ : World)
    {calls : List Call}
    (hcalls : ∀ call ∈ calls, call.Valid (inMemoryOram A crypto mapCapacity stashCapacity height batchSize))
    (hendless : ∃ call ∈ calls, call.Endless) :
    (((inMemoryOram A crypto mapCapacity stashCapacity height batchSize).session calls).exec w₀ s₀).1 = .error .diverges := by
  rcases hrun : ((inMemoryOram A crypto mapCapacity stashCapacity height batchSize).session calls).exec w₀ s₀ with
    ⟨e | replies, w, s⟩
  · rcases (constructed_triple h hsmall hcalls).error hfresh hrun with ⟨-, hfew⟩ | ⟨rfl, -⟩
    · exact absurd hroom (not_le.2 hfew)
    · rfl
  · obtain ⟨call, hm, hlong⟩ := hendless
    exact absurd hlong ((LawfulOram.session_ends calls).ok trivial hrun call hm)

/-- **A batch without an end.** 2^32 reads of one block, as many as the tiny ORAM takes in a batch, and a stash with room for
all its blocks: in no world does the call return or throw. -/
theorem batch_without_end :
    (∀ call ∈ [Call.multiple endlessReads], call.Valid (inMemoryOram tinyStorage plainCrypto 2 6 1 (2 ^ 32))) ∧
    (∀ w₀, (((inMemoryOram tinyStorage plainCrypto 2 6 1 (2 ^ 32)).session [.multiple endlessReads]).exec w₀
      (zeroState tinyStorage 2)).1 = .error .diverges) ∧
    ∀ fuel response answers w s, (((inMemoryOram tinyStorage plainCrypto 2 6 1 (2 ^ 32)).batchLoop endlessReads fuel 0
      response).exec w s).1 ≠ .ok answers := by
  have hlong : 2 ^ 32 ≤ endlessReads.length := length_endlessReads.ge
  have hvalid : ∀ call ∈ [Call.multiple endlessReads], call.Valid (inMemoryOram tinyStorage plainCrypto 2 6 1 (2 ^ 32)) :=
    endlessReads_valid (Nat.mul_pos (Nat.two_pow_pos 1) Nat.one_pos) le_rfl
  exact ⟨hvalid, fun w₀ => session_diverges tiny_sizes (by decide) (by decide) (zeroState_fresh tinyStorage 2) w₀ hvalid
    ⟨_, List.mem_cons_self, hlong⟩, fun fuel response answers w s => batchLoop_endless hlong fuel response answers w s⟩

/-- the records of an ID in the stash and in the buckets of the storage -/
def occurrences {β μ : Type} (s : OramState β μ) (capacity : ℕ) (bucketAt : ℕ → Bucket) (id : ℕ) : ℕ :=
  (s.stash.toList.map Prod.fst).count id + (((List.range capacity).flatMap bucketAt).map Prod.fst).count id

/-- the Path ORAM invariant of a tree that may lie partly in the cache, with its buckets and its leaves -/
structure LogicalInvariant {β μ : Type} (O : Oram β μ) (s : OramState β μ) (bucketAt : ℕ → Bucket)
    (leafOf : ℕ → Option ℕ) (written : ℕ → Prop) : Prop where
  once : ∀ id, written id → occurrences s O.storage.capacity bucketAt id = 1
  no_other : ∀ id, ¬ written id → id ≠ ulongMax → occurrences s O.storage.capacity bucketAt id = 0
  on_path : ∀ ℓ < O.storage.capacity, ∀ x ∈ bucketAt ℓ, x.1 ≠ ulongMax →
    ∃ leaf, leafOf x.1 = some leaf ∧ ℓ.log2 < O.height ∧ ℓ = O.bucketForLevelLeaf ℓ.log2 leaf
  leaf_lt : ∀ id < 2 ^ O.height * O.Z, ∃ leaf < 2 ^ (O.height - 1), leafOf id = some leaf
  full : ∀ ℓ < O.storage.capacity, (bucketAt ℓ).length = O.Z

/-- the same between calls, when all of it is in the storage -/
structure PathInvariant {β μ : Type} (O : Oram β μ) (s : OramState β μ) (bucketAt : ℕ → Bucket) (leafOf : ℕ → Option ℕ)
    (written : ℕ → Prop) : Prop extends LogicalInvariant O s bucketAt leafOf written where
  cache_empty : s.cache = ∅

end

/-! ## Counting records -/

section Counting

variable {β μ : Type} {O : Oram β μ} {v : View} {c : Contents}

/-- the real IDs of a bucket -/
def realIds (b : Bucket) : List ℕ := (b.filter fun x => x.1 ≠ ulongMax).map Prod.fst

theorem mem_realIds {b : Bucket} {id : ℕ} (hid : id ≠ ulongMax) : id ∈ realIds b ↔ ∃ x ∈ b, x.1 = id := by
  simp only [realIds, List.mem_map, List.mem_filter, decide_eq_true_eq]
  constructor
  · rintro ⟨x, ⟨hx, -⟩, h⟩
    exact ⟨x, hx, h⟩
  · rintro ⟨x, hx, rfl⟩
    exact ⟨x, ⟨hx, hid⟩, rfl⟩

/-- dummies do not count -/
theorem count_realIds (tree : ℕ → Bucket) (locations : List ℕ) {id : ℕ} (hid : id ≠ ulongMax) :
    ((locations.flatMap tree).map Prod.fst).count id = (locations.flatMap fun ℓ => realIds (tree ℓ)).count id := by
  have hfilter : (locations.flatMap fun ℓ => realIds (tree ℓ)) =
      ((locations.flatMap tree).map Prod.fst).filter fun k => k ≠ ulongMax := by
    induction locations with
    | nil => rfl
    | cons ℓ locations ih =>
      rw [List.flatMap_cons, ih, List.flatMap_cons, List.map_append, List.filter_append]
      congr 1
      rw [realIds, List.filter_map]
      rfl
  rw [hfilter, List.count_filter (by simpa using hid)]

theorem realIds_nodup (hu : LawfulOram.Unique v) {locations : List ℕ} (hn : locations.Nodup) :
    (locations.flatMap fun ℓ => realIds (v.tree ℓ)).Nodup := by
  refine List.nodup_flatMap.2 ⟨fun ℓ _ => hu.bucket ℓ, ?_⟩
  refine hn.imp fun {ℓ ℓ'} hne => ?_
  intro id h1 h2
  simp only [realIds, List.mem_map, List.mem_filter, decide_eq_true_eq] at h1 h2
  obtain ⟨x, ⟨hx, hxd⟩, rfl⟩ := h1
  obtain ⟨y, ⟨hy, -⟩, he⟩ := h2
  exact hne (hu.tree ℓ ℓ' x hx y hy he.symm hxd)

/-- a block that is held has one record, any other ID none -/
theorem occurrences_eq (L : LawfulOram O) (hv : LawfulOram.Inv O c v) (hu : LawfulOram.Unique v) {s : OramState β μ}
    (hs : v.stash = fun k => s.stash.lookup k) {id : ℕ} (hid : id ≠ ulongMax) :
    occurrences s O.storage.capacity v.tree id = if c id = none then 0 else 1 := by
  have hstash : ∀ {k}, k ∈ s.stash.toList.map Prod.fst ↔ ∃ d, v.stash k = some d := fun {k} => by
    rw [UnorderedMap.toList_keys, ← AList.mem_keys, UnorderedMap.mem_iff_lookup, hs]
  have htree : id ∈ ((List.range O.storage.capacity).flatMap fun ℓ => realIds (v.tree ℓ)) ↔
      ∃ ℓ < O.storage.capacity, ∃ x ∈ v.tree ℓ, x.1 = id := by
    simp only [List.mem_flatMap, List.mem_range, mem_realIds hid]
  have hlt : ∀ {ℓ x}, x ∈ v.tree ℓ → x.1 = id → ℓ < O.storage.capacity := by
    rintro ℓ x hx rfl
    exact L.mem_path_capacity (hv.pos_lt _ ((hv.tree_id ℓ x hx).resolve_left hid)) (hv.tree_path ℓ x hx hid)
  rw [occurrences, count_realIds v.tree _ hid]
  split_ifs with hc
  · have h1 : id ∉ s.stash.toList.map Prod.fst := fun h => by
      obtain ⟨d, hd⟩ := hstash.1 h
      obtain ⟨p, hp, -⟩ := hv.stash_good id d hd
      rw [hc] at hp
      cases hp
    have h2 : id ∉ (List.range O.storage.capacity).flatMap fun ℓ => realIds (v.tree ℓ) := fun h => by
      obtain ⟨ℓ, -, x, hx, rfl⟩ := htree.1 h
      obtain ⟨p, hp, -⟩ := hv.tree_good ℓ x hx hid
      rw [hc] at hp
      cases hp
    rw [List.count_eq_zero_of_not_mem h1, List.count_eq_zero_of_not_mem h2]
  · obtain ⟨p, hp⟩ := Option.ne_none_iff_exists'.1 hc
    rcases hv.copy id p hp with ⟨d, hd⟩ | ⟨ℓ, x, hx, hxid⟩
    · have h2 : id ∉ (List.range O.storage.capacity).flatMap fun ℓ => realIds (v.tree ℓ) := fun h => by
        obtain ⟨ℓ, -, x, hx, hxid⟩ := htree.1 h
        exact hu.stash id d hd ℓ x hx hxid
      rw [List.count_eq_one_of_mem s.stash.nodup_keys (hstash.2 ⟨d, hd⟩), List.count_eq_zero_of_not_mem h2]
    · have h1 : id ∉ s.stash.toList.map Prod.fst := fun h => by
        obtain ⟨d, hd⟩ := hstash.1 h
        exact hu.stash id d hd ℓ x hx hxid
      rw [List.count_eq_zero_of_not_mem h1,
        List.count_eq_one_of_mem (realIds_nodup hu List.nodup_range) (htree.2 ⟨ℓ, hlt hx hxid, x, hx, hxid⟩)]

/-- a view in which every block is once satisfies the invariant for the blocks it holds -/
theorem logicalInvariant_of_unique (L : LawfulOram O) (hv : LawfulOram.Inv O c v) (hu : LawfulOram.Unique v)
    {s : OramState β μ} (hs : v.stash = fun k => s.stash.lookup k) {leafOf : ℕ → Option ℕ}
    (hleaf : ∀ id < 2 ^ O.height * O.Z, leafOf id = some (v.pos id)) :
    LogicalInvariant O s v.tree leafOf fun id => c id ≠ none := by
  refine ⟨?_, ?_, ?_, ?_, hv.bucket_length⟩
  · intro id hid
    obtain ⟨p, hp⟩ := Option.ne_none_iff_exists'.1 hid
    rw [occurrences_eq L hv hu hs (LawfulOram.ne_ulongMax L (hv.id_lt id p hp)), if_neg hid]
  · intro id hid hne
    rw [occurrences_eq L hv hu hs hne, if_pos (not_not.1 hid)]
  · intro ℓ _ x hx hne
    have hlt := (hv.tree_id ℓ x hx).resolve_left hne
    have hpos := hv.pos_lt x.1 hlt
    obtain ⟨level, hlevel, rfl⟩ := mem_path.1 (hv.tree_path ℓ x hx hne)
    refine ⟨v.pos x.1, hleaf _ hlt, ?_⟩
    rw [node_log2 hlevel hpos]
    exact ⟨hlevel, (L.bucketForLevelLeaf_eq hlevel hpos).symm⟩
  · exact fun id hid => ⟨v.pos id, hv.pos_lt id hid, hleaf id hid⟩

end Counting

section

variable {A : AbsStorageAdapter} {crypto : Crypto} {mapCapacity stashCapacity height batchSize : ℕ}

/-- a state that holds contents once satisfies the Path ORAM invariant for them -/
theorem pathInvariant_of_holdsOnce (h : Sizes A crypto mapCapacity height) {c : Contents}
    {s : OramState (BlockArray A.capacity A.blockSize) (PositionArray mapCapacity)}
    (hs : (inMemoryOram_lawful h stashCapacity batchSize).HoldsOnce c s) :
    ∃ bucketAt, (∀ ℓ < A.capacity,
        (inMemoryOram A crypto mapCapacity stashCapacity height batchSize).storage.decodeBucket
          (s.storage.backend.read ℓ) = .ok (bucketAt ℓ)) ∧
      PathInvariant (inMemoryOram A crypto mapCapacity stashCapacity height batchSize) s bucketAt (fun id => s.map[id]?)
        fun id => c id ≠ none := by
  obtain ⟨v, hv, hu, hcached, hsees⟩ := hs
  set L := inMemoryOram_lawful h stashCapacity batchSize with hL
  obtain ⟨hempty, hdecode⟩ := hsees.decode hcached
  have hlogical := logicalInvariant_of_unique L hv hu hsees.stash fun id hid =>
    inMemoryOram_position h stashCapacity batchSize hsees hid
  exact ⟨v.tree, hdecode, { hlogical with cache_empty := hempty }⟩

/-- **The Path ORAM invariant.** After the construction of an ORAM over in-memory adapters and every sequence of valid
calls that does not throw, the IDs that were put have one record each, no other real ID has one, records lie on the
paths of their leaves, and the cache is empty. -/
theorem run_invariant (h : Sizes A crypto mapCapacity height) (hsmall : 2 ^ height * A.Z ≤ 2 ^ 31)
    {s₀ s : OramState (BlockArray A.capacity A.blockSize) (PositionArray mapCapacity)} (hfresh : Fresh s₀) {w₀ w : World}
    {calls : List Call} {replies : List Reply}
    (hcalls : ∀ call ∈ calls, call.Valid (inMemoryOram A crypto mapCapacity stashCapacity height batchSize))
    (hrun : ((inMemoryOram A crypto mapCapacity stashCapacity height batchSize).session calls).exec w₀ s₀ =
      (.ok replies, w, s)) :
    ∃ bucketAt, (∀ ℓ < A.capacity,
        (inMemoryOram A crypto mapCapacity stashCapacity height batchSize).storage.decodeBucket
          (s.storage.backend.read ℓ) = .ok (bucketAt ℓ)) ∧
      PathInvariant (inMemoryOram A crypto mapCapacity stashCapacity height batchSize) s bucketAt (fun id => s.map[id]?)
        (EverPut calls) := by
  rw [everPut_eq]
  exact pathInvariant_of_holdsOnce h (constructed_run h hsmall hfresh hcalls hrun).2

theorem run_invariant_tiny :
    ∃ s bucketAt, PathInvariant (inMemoryOram tinyStorage plainCrypto 2 6 1 4) s bucketAt (fun id => s.map[id]?)
      (EverPut [.put 0 [1], .get 0]) := by
  obtain ⟨bucketAt, -, hinv⟩ := run_invariant tiny_sizes (by decide) (zeroState_fresh tinyStorage 2) (by decide +kernel)
    (Prog.exec_eq tiny_session)
  exact ⟨_, bucketAt, hinv⟩

end

end PathOram
