/-
Uploads that fail.

`syncCache` sends the buckets of the cache by one `set`. A provider that throws has written some of them, each whole, and
the cache stays: it hides what was written, and the next call works on it. The tree that counts is the logical one, the
cache laid over the storage (`Oram.bucketAt`).

- `UploadsOnly`: whatever a run throws, it throws in an upload: the accesses of every call return.
- `Exact`: a copy is what was put, byte for byte, or its padding to the block size.
- `uploads_lose_nothing`: **after every such run** the logical tree satisfies the Path ORAM invariant, every block holds
  the payload last put, by a call that returned or by one that did not, and the next upload that returns leaves the
  logical tree in the storage.
-/
import PathOram.Failures
import PathOram.Correctness

namespace PathOram

open Lib

/-! ## Copies -/

/-- the blocks that were put since the last upload -/
def unsent (raw : Finset ℕ) (op : Op) : Finset ℕ := if op.read then raw else insert op.block raw

namespace LawfulOram

variable {β μ : Type} {O : Oram β μ} {L : LawfulOram O} {v v' : View} {c : Contents} {raw : Finset ℕ}

/-- every copy of a block is its payload, or is as long as a block unless the block was put since the last upload -/
structure Exact (O : Oram β μ) (raw : Finset ℕ) (c : Contents) (v : View) : Prop where
  stash : ∀ k d, v.stash k = some d → c k = some d ∨ k ∉ raw ∧ d.length = O.storage.userBlockSize
  tree : ∀ ℓ, ∀ x ∈ v.tree ℓ, x.1 ≠ ulongMax → c x.1 = some x.2 ∨ x.1 ∉ raw ∧ x.2.length = O.storage.userBlockSize

/-- a copy that is good and as long as a block is the payload padded -/
theorem eq_or_padded {k n : ℕ} {d : Bytes} (hg : Good c k d) (he : c k = some d ∨ k ∉ raw ∧ d.length = n) :
    ∃ p, c k = some p ∧ (d = p ∨ k ∉ raw ∧ d = zeroPad n p) := by
  obtain ⟨p, hp, j, rfl⟩ := hg
  refine ⟨p, hp, he.imp (fun h => ?_) fun h => ⟨h.1, ?_⟩⟩
  · exact (Option.some.inj (hp.symm.trans h)).symm
  · rw [zeroPad, ← h.2, List.length_append, List.length_replicate, Nat.add_sub_cancel_left]

theorem exact_absorb (he : Exact O raw c v) {blocks : List Block} (hb : ∀ x ∈ blocks, ∃ ℓ, x ∈ v.tree ℓ) {k : ℕ} {d : Bytes}
    (hk : absorb v.stash blocks k = some d) : c k = some d ∨ k ∉ raw ∧ d.length = O.storage.userBlockSize := by
  rcases of_absorb hk with hs | ⟨hm, hne⟩
  · exact he.stash k d hs
  · obtain ⟨ℓ, hx⟩ := hb _ hm
    exact he.tree ℓ _ hx hne

/-- an access puts payloads as they are, and moves the other copies -/
theorem exact_accessed (L : LawfulOram O) (hv : Inv O c v) (he : Exact O raw c v) {op : Op} {r : Bytes}
    (ha : Accessed O v op [] r v') : Exact O (unsent raw op) (c.apply op) v' := by
  obtain ⟨leaf, mid, cs, hleaf, hread, -, hev⟩ := ha
  have hf := fetched_of_pathRead L hv hread
  have hmid : ∀ k d, mid.stash k = some d → c k = some d ∨ k ∉ raw ∧ d.length = O.storage.userBlockSize := by
    obtain ⟨blocks, missing, hblocks, -, rfl⟩ := hread
    exact fun k d hk => exact_absorb he (fun x hx => ((hblocks x).1 hx).imp fun _ h => h.2) hk
  -- the other blocks are as before
  have hother : ∀ k d, k ≠ op.block → (c k = some d ∨ k ∉ raw ∧ d.length = O.storage.userBlockSize) →
      c.apply op k = some d ∨ k ∉ unsent raw op ∧ d.length = O.storage.userBlockSize := by
    intro k d hne hk
    rw [c.apply_of_ne op hne]
    refine hk.imp_right fun h => ⟨?_, h.2⟩
    rw [unsent]
    split_ifs
    · exact h.1
    · rw [Finset.mem_insert, not_or]
      exact ⟨hne, h.1⟩
  have hupdated : ∀ k d, (updated op mid).stash k = some d →
      c.apply op k = some d ∨ k ∉ unsent raw op ∧ d.length = O.storage.userBlockSize := by
    intro k d hk
    cases hop' : op.read with
    | true =>
      rw [updated, if_pos hop'] at hk
      rw [c.apply_read hop', unsent, if_pos hop']
      exact hmid k d hk
    | false =>
      rw [updated, if_neg (by simp [hop'])] at hk
      rcases eq_or_ne k op.block with rfl | hne
      · rw [c.apply_write hop']
        exact Or.inl (by simpa using hk)
      · simp only [Function.update_of_ne hne] at hk
        exact hother k d hne (hmid k d hk)
  refine ⟨fun k d hk => hupdated k d (hev.stash_some hk), fun ℓ x hx hne => ?_⟩
  by_cases hp : ℓ ∈ path O.height (v.pos op.block)
  · rcases hev.of_mem_path hp hx with hd | ⟨hs, -, -⟩
    · exact absurd hd.1 hne
    · exact hupdated x.1 x.2 hs
  · rw [hev.off_path ℓ hp, hf.tree] at hx
    exact hother x.1 x.2 (fun h => hp (h ▸ hv.tree_path ℓ x hx hne)) (he.tree ℓ x hx hne)

theorem exact_accessRun (L : LawfulOram O) (hsmall : O.Small) {ops : List Op} {rs : List Bytes}
    (h : AccessRun O v ops rs v') (hv : Inv O c v) (he : Exact O raw c v) (hops : ∀ op ∈ ops, op.Valid O) :
    Exact O (ops.foldl unsent raw) (c.after ops) v' := by
  induction h generalizing c raw with
  | nil => exact he
  | cons ha _ ih =>
    have hop := hops _ List.mem_cons_self
    exact ih (inv_accessed L hsmall hv hop ha).1 (exact_accessed L hv he ha) fun op hm =>
      hops op (List.mem_cons_of_mem _ hm)

theorem Exact.mono {raw' : Finset ℕ} (he : Exact O raw c v) (hraw : raw' ⊆ raw) : Exact O raw' c v :=
  ⟨fun k d hk => (he.stash k d hk).imp_right fun h => ⟨fun hm => h.1 (hraw hm), h.2⟩,
    fun ℓ x hx hne => (he.tree ℓ x hx hne).imp_right fun h => ⟨fun hm => h.1 (hraw hm), h.2⟩⟩

theorem exact_prepared (he : Exact O raw c v) (hp : Prepared O v v') : Exact O raw c v' := by
  obtain ⟨cached, mapCalls, calls, -, rfl⟩ := hp
  exact ⟨he.stash, he.tree⟩

/-- the accesses of a call put payloads as they are -/
theorem exact_served (L : LawfulOram O) (hsmall : O.Small) (hv : Inv O c v) (he : Exact O ∅ c v) {ops : List Op}
    (hops : ∀ op ∈ ops, op.Valid O) {rs : List Bytes} (h : Served O v ops rs v') : Exact O ∅ (c.after ops) v' := by
  obtain ⟨v₁, hp, hr⟩ := h
  exact (exact_accessRun L hsmall hr (inv_prepared hv hp) (exact_prepared he hp) hops).mono (Finset.empty_subset _)

/-- an upload pads copies to the block size -/
theorem exact_padded (hv : Shape O v) (he : Exact O ∅ c v) (cached : ℕ → Bool) (calls : List StorageCall) :
    Exact O ∅ c { v with tree := padded O v, cached := cached, calls := calls } := by
  refine ⟨he.stash, fun ℓ x hx hne => ?_⟩
  obtain ⟨y, hy, h1, h2⟩ := mem_padded hx
  rw [h1] at hne ⊢
  rcases h2 with h2 | h2
  · rw [h2]
    exact he.tree ℓ y hy hne
  · rw [h2]
    exact Or.inr ⟨Finset.notMem_empty _, length_zeroPad (hv.tree_data ℓ y hy)⟩

end LawfulOram

/-! ## Runs -/

section

variable {β μ : Type} (O : Oram β μ)

/-- the accesses of every call return: what a call of the run throws, its upload has thrown -/
def Oram.UploadsOnly : List Call → World → OramState β μ → Prop
  | [], _, _ => True
  | call :: calls, w, s => ((O.accesses call).exec w s).1.isOk = true ∧
      UploadsOnly calls ((O.exec call).exec w s).2.1 ((O.exec call).exec w s).2.2

/-- every record in the stash and in the buckets is the payload of its ID, or that payload padded to the block size -/
structure Carries (s : OramState β μ) (bucketAt : ℕ → Bucket) (c : Contents) : Prop where
  stash : ∀ id d, s.stash.lookup id = some d → ∃ p, c id = some p ∧ (d = p ∨ d = zeroPad O.storage.userBlockSize p)
  tree : ∀ ℓ < O.storage.capacity, ∀ x ∈ bucketAt ℓ, x.1 ≠ ulongMax →
    ∃ p, c x.1 = some p ∧ (x.2 = p ∨ x.2 = zeroPad O.storage.userBlockSize p)

end

namespace LawfulOram

variable {β : Type} {mapCapacity : ℕ} {O : Oram β (PositionArray mapCapacity)} {L : LawfulOram O} {c : Contents}
  {s s' : OramState β (PositionArray mapCapacity)} {w w' : World}

/-- the state holds the contents c, each block once, some of it perhaps in the cache -/
def KeepsOnce (L : LawfulOram O) (c : Contents) (s : OramState β (PositionArray mapCapacity)) : Prop :=
  ∃ v, Inv O c v ∧ Unique v ∧ Exact O ∅ c v ∧ L.Sees v s

theorem KeepsOnce.logicalInvariant (hL : L.OnArray) (h : L.KeepsOnce c s) :
    LogicalInvariant O s (O.bucketAt L.storage s) (fun id => s.map[id]?) (fun id => c id ≠ none) := by
  obtain ⟨v, hv, hu, -, hs⟩ := h
  obtain ⟨honce, hno, hpath, hleaf, hfull⟩ := logicalInvariant_of_unique L hv hu hs.stash fun id hid => hL.position hs hid
  have htree : ∀ ℓ < O.storage.capacity, O.bucketAt L.storage s ℓ = v.tree ℓ := fun ℓ hℓ => (sees_bucketAt hs hℓ).symm
  have hcount : ∀ id, occurrences s O.storage.capacity (O.bucketAt L.storage s) id =
      occurrences s O.storage.capacity v.tree id := fun id => by
    have hbuckets : (List.range O.storage.capacity).flatMap (O.bucketAt L.storage s) =
        (List.range O.storage.capacity).flatMap v.tree := by
      rw [List.flatMap_def, List.flatMap_def, List.map_congr_left fun ℓ hℓ => htree ℓ (List.mem_range.1 hℓ)]
    rw [occurrences, occurrences, hbuckets]
  refine ⟨fun id h => ?_, fun id h hne => ?_, fun ℓ hℓ x hx hne => ?_, hleaf, fun ℓ hℓ => ?_⟩
  · rw [hcount, honce id h]
  · rw [hcount, hno id h hne]
  · exact hpath ℓ hℓ x (htree ℓ hℓ ▸ hx) hne
  · rw [htree ℓ hℓ, hfull ℓ hℓ]

theorem KeepsOnce.carries (h : L.KeepsOnce c s) : Carries O s (O.bucketAt L.storage s) c := by
  obtain ⟨v, hv, -, he, hs⟩ := h
  refine ⟨fun id d hd => ?_, fun ℓ hℓ x hx hne => ?_⟩
  · have hk : v.stash id = some d := (congrFun hs.stash id).trans hd
    exact (eq_or_padded (hv.stash_good id d hk) (he.stash id d hk)).imp fun _ h => ⟨h.1, h.2.imp_right And.right⟩
  · rw [← sees_bucketAt hs hℓ] at hx
    exact (eq_or_padded (hv.tree_good ℓ x hx hne) (he.tree ℓ x hx hne)).imp fun _ h => ⟨h.1, h.2.imp_right And.right⟩

/-- **The accesses of a call**, when they return, write their payloads. -/
theorem accesses_keepsOnce (hsmall : O.Small) {call : Call} (hcall : call.Valid O) (hs : L.KeepsOnce c s) {rs : List Bytes}
    (hexec : (O.accesses call).exec w s = (.ok rs, w', s')) : L.KeepsOnce (c.after call.ops) s' := by
  obtain ⟨v, hv, hu, he, hs⟩ := hs
  obtain ⟨v', hserved, hs'⟩ := Triple.ok (accesses_served hv.toShape hcall) hs hexec
  exact ⟨v', (inv_served L hsmall hv hcall.1 hserved).1, unique_served L hsmall hv hu hcall.1 hserved,
    exact_served L hsmall hv he hcall.1 hserved, hs'⟩

/-- **An upload keeps every block**, whether it returns or throws. -/
theorem syncCache_keepsOnce (hL : L.OnArray) :
    Triple (L.KeepsOnce c) O.syncCache (fun _ => L.KeepsOnce c) (fun _ => L.KeepsOnce c) := by
  apply Triple.exists_pre
  intro v
  apply Triple.of_pure
  intro hv
  apply Triple.of_pure
  intro hu
  apply Triple.of_pure
  intro he
  refine Triple.conseq (syncCache_refines (hv.toShape.flushable L)) (fun _ h => h) (fun _ s hs => ?_) fun e s hs => ?_
  · obtain ⟨v', hsync, hs⟩ := hs
    refine ⟨v', inv_synced hv hsync, unique_synced hu hsync, ?_, hs⟩
    obtain ⟨requests, call, -, -, -, rfl⟩ := hsync
    exact exact_padded hv.toShape he _ _
  · obtain ⟨v', hfault, hs⟩ := hs.resolve_left (hL.err e)
    refine ⟨v', inv_uploadFault hv hfault, ?_⟩
    obtain ⟨-, call, rfl⟩ := hfault
    exact ⟨unique_padded hu _ _, exact_padded hv.toShape he _ _, hs⟩

/-- an upload that returns leaves the logical tree in the storage, the cached buckets with their payloads padded -/
theorem syncCache_flushes (hs : L.KeepsOnce c s) (hexec : O.syncCache.exec w s = (.ok (), w', s')) :
    s'.cache = ∅ ∧ ∀ ℓ < O.storage.capacity, O.storage.decodeBucket (L.storage.raw s'.storage.backend ℓ) =
      .ok (if ℓ ∈ s.cache then O.storage.stored (O.bucketAt L.storage s ℓ) else O.bucketAt L.storage s ℓ) := by
  obtain ⟨v, hv, -, -, hs⟩ := hs
  obtain ⟨v', ⟨requests, call, -, -, -, rfl⟩, hs'⟩ := Triple.ok (syncCache_refines (hv.toShape.flushable L)) hs hexec
  obtain ⟨hcache, hdecode⟩ := hs'.decode rfl
  refine ⟨hcache, fun ℓ hℓ => ?_⟩
  rw [hdecode ℓ hℓ]
  have hcached : v.cached ℓ = true ↔ ℓ ∈ s.cache := by rw [hs.cached, decide_eq_true_eq]
  change Except.ok (padded O v ℓ) = _
  simp only [padded, hcached, sees_bucketAt hs hℓ]

/-- a call whose accesses return keeps every block, whether its upload returns or throws -/
theorem exec_keepsOnce (hL : L.OnArray) (hsmall : O.Small) {call : Call} (hcall : call.Valid O) (hs : L.KeepsOnce c s)
    (hok : ((O.accesses call).exec w s).1.isOk = true) :
    L.KeepsOnce (c.after call.ops) ((O.exec call).exec w s).2.2 := by
  rw [exec_eq]
  rcases hexec : (O.accesses call).exec w s with ⟨e | rs, w₁, s₁⟩
  · rw [hexec] at hok
    cases hok
  · rw [Prog.exec_bind_ok hexec]
    have hmid := accesses_keepsOnce hsmall hcall hs hexec
    exact Triple.state ((syncCache_keepsOnce hL).bind fun _ => Triple.pure fun _ h => h) hmid

/-- **A run that throws in uploads only keeps every block.** -/
theorem attempts_keepsOnce (hL : L.OnArray) (hsmall : O.Small) {calls : List Call} (hcalls : ∀ call ∈ calls, call.Valid O)
    (hs : L.KeepsOnce c s) (huploads : O.UploadsOnly calls w s) :
    L.KeepsOnce (c.after (calls.flatMap Call.ops)) ((O.attempts calls).exec w s).2.2 := by
  induction calls generalizing c w s with
  | nil => exact hs
  | cons call calls ih =>
    obtain ⟨hok, hrest⟩ := huploads
    have hcall := exec_keepsOnce hL hsmall (hcalls call List.mem_cons_self) hs hok
    have hkeeps := ih (fun c hc => hcalls c (List.mem_cons_of_mem _ hc)) hcall hrest
    rw [List.flatMap_cons, Contents.after_append, Oram.attempts, List.mapM_cons,
      Prog.exec_bind_ok (Prog.exec_attempt _ w s)]
    exact Triple.bind_state hkeeps fun _ => Triple.pure fun _ h => h

/-- an initialised ORAM keeps nothing -/
theorem KeepsOnce.of_empty (h : L.HoldsOnce (fun _ => none) s) : L.KeepsOnce (fun _ => none) s := by
  obtain ⟨v, hv, hu, -, hs⟩ := h
  refine ⟨v, hv, hu, ⟨fun k d hk => ?_, fun ℓ x hx hne => ?_⟩, hs⟩
  · obtain ⟨p, hp, -⟩ := hv.stash_good k d hk
    cases hp
  · obtain ⟨p, hp, -⟩ := hv.tree_good ℓ x hx hne
    cases hp

end LawfulOram

/-! ## The result -/

/-- **Failed uploads lose nothing.** After the construction, calls are made and go on after exceptions, and what they throw
their uploads have thrown, after writing some of the buckets. Then the logical tree satisfies the Path ORAM invariant for
the IDs that were put, every record is the payload last put by a call, also by one that threw, or that payload padded to
the block size, and when the upload of a further call returns, the storage alone is the logical tree. -/
theorem uploads_lose_nothing {β : Type} {S : StorageAdapter β} {mapCapacity stashCapacity height batchSize : ℕ}
    (h : Sizes S.toAbsStorageAdapter S.crypto mapCapacity height) (hsmall : 2 ^ height * S.Z ≤ 2 ^ 31)
    (L : LawfulBackend S.backend S.capacity S.blockSize) {s₀ s₁ s : OramState β (PositionArray mapCapacity)}
    {w₀ w₁ w : World} (hfresh : Fresh s₀)
    (hconstruct : (arrayOram S mapCapacity stashCapacity height batchSize).construct.exec w₀ s₀ = (.ok (), w₁, s₁))
    {calls : List Call} (hcalls : ∀ call ∈ calls, call.Valid (arrayOram S mapCapacity stashCapacity height batchSize))
    (huploads : (arrayOram S mapCapacity stashCapacity height batchSize).UploadsOnly calls w₁ s₁)
    {outcomes : List (Except Exception Reply)}
    (hrun : ((arrayOram S mapCapacity stashCapacity height batchSize).attempts calls).exec w₁ s₁ = (.ok outcomes, w, s)) :
    LogicalInvariant (arrayOram S mapCapacity stashCapacity height batchSize) s
        ((arrayOram S mapCapacity stashCapacity height batchSize).bucketAt L s) (fun id => s.map[id]?) (EverPut calls) ∧
      Carries (arrayOram S mapCapacity stashCapacity height batchSize) s
        ((arrayOram S mapCapacity stashCapacity height batchSize).bucketAt L s)
        (Contents.after (fun _ => none) (calls.flatMap Call.ops)) ∧
      ∀ call : Call, call.Valid (arrayOram S mapCapacity stashCapacity height batchSize) → ∀ rs w' mid,
        ((arrayOram S mapCapacity stashCapacity height batchSize).accesses call).exec w s = (.ok rs, w', mid) →
        ∀ w'' s', (arrayOram S mapCapacity stashCapacity height batchSize).syncCache.exec w' mid = (.ok (), w'', s') →
          s'.cache = ∅ ∧ ∀ ℓ < S.capacity, S.decodeBucket (L.raw s'.storage.backend ℓ) =
            .ok (if ℓ ∈ mid.cache then S.stored ((arrayOram S mapCapacity stashCapacity height batchSize).bucketAt L mid ℓ)
              else (arrayOram S mapCapacity stashCapacity height batchSize).bucketAt L mid ℓ) := by
  set O := arrayOram S mapCapacity stashCapacity height batchSize
  have hsmallO : O.Small := hsmall
  have hL := arrayOram_onArray h L stashCapacity batchSize
  have hempty := LawfulOram.KeepsOnce.of_empty ((LawfulOram.construct_triple (arrayOram_lawful h L stashCapacity batchSize)).ok
    (arrayOram_fresh h L stashCapacity batchSize hfresh) hconstruct)
  have hkeeps := LawfulOram.attempts_keepsOnce hL hsmallO hcalls hempty huploads
  rw [hrun] at hkeeps
  refine ⟨?_, hkeeps.carries, fun call hcall rs w' mid haccesses w'' s' hsync => ?_⟩
  · rw [everPut_eq]
    exact hkeeps.logicalInvariant hL
  · exact LawfulOram.syncCache_flushes (LawfulOram.accesses_keepsOnce hsmallO hcall hkeeps haccesses) hsync

/-- the in-memory provider behind a connection that the world may cut when it writes -/
def tornBackend (capacity blockSize : ℕ) : Backend (BlockArray capacity blockSize) where
  getInternal location := do return (← Prog.read).read location
  setInternal location raw := do
    let outcome ← Prog.world fun w => (w.iter 0, { w with iter := fun n => w.iter (n + 1) })
    if outcome = 1 then throw (.backend "connection lost") else Prog.modify fun blocks => blocks.write location raw
  getInternalBatch := none
  setInternalBatch := none
  supportsBatchGet := false
  supportsBatchSet := false

/-- a provider that loses its connection is lawful: what it has written it has written whole -/
def tornBackend_lawful (capacity blockSize : ℕ) : LawfulBackend (tornBackend capacity blockSize) capacity blockSize where
  raw := BlockArray.read
  fault e := e = .backend "connection lost"
  getInternal f location _ := by
    refine Triple.bind (Q := fun b s => BlockArray.read b = f ∧ BlockArray.read s = f) ?_ fun b => ?_
    · exact Triple.read fun s hs => ⟨hs, hs⟩
    · exact Triple.pure fun s hs => ⟨by rw [hs.1], hs.2⟩
  setInternal f location buffer hl hb := by
    apply Triple.bind (Q := fun _ s => BlockArray.read s = f) (Triple.world fun w s hs => hs)
    intro outcome
    refine Triple.ite (fun _ => ?_) fun _ => ?_
    · exact Triple.throw fun s hs => ⟨rfl, Or.inl hs⟩
    · exact Triple.modify fun s hs => by rw [BlockArray.read_write s hl hb, hs]
  getInternalBatch _ h := by simp [tornBackend] at h
  setInternalBatch _ h := by simp [tornBackend] at h

/-- a tree of height 2 over a provider that loses its connection -/
def tornOram : Oram (BlockArray smallStorage.capacity smallStorage.blockSize) (PositionArray 4) :=
  arrayOram { smallStorage with crypto := plainCrypto, backend := tornBackend smallStorage.capacity smallStorage.blockSize } 4 5 2
    4

/-- a world in which the connection is lost at the second bucket of the first upload -/
def tornWorld : World := ⟨fun _ => 0, fun n => if n = 8 then 1 else 0⟩

theorem torn_sizes : Sizes smallStorage plainCrypto 4 2 :=
  ⟨by decide, by decide, by decide, by decide, by decide, plainCrypto_lawful⟩

/-- a put whose upload throws half-way, and a get whose upload returns -/
theorem uploads_lose_nothing_torn : ∃ s mid s' : OramState (BlockArray 4 64) (PositionArray 4),
    LogicalInvariant tornOram s (tornOram.bucketAt (tornBackend_lawful 4 64) s) (fun id => s.map[id]?) (EverPut [.put 0 [7]]) ∧
      Carries tornOram s (tornOram.bucketAt (tornBackend_lawful 4 64) s)
        (Contents.after (fun _ => none) ([Call.put 0 [7]].flatMap Call.ops)) ∧ mid.cache.entries ≠ [] ∧ s'.cache = ∅ := by
  set built := tornOram.construct.exec tornWorld (zeroState smallStorage 4) with hbuilt
  set put := (tornOram.attempts [.put 0 [7]]).exec built.2.1 built.2.2 with hput
  set got := (tornOram.accesses (.get 0)).exec put.2.1 put.2.2 with hgot
  set synced := tornOram.syncCache.exec got.2.1 got.2.2 with hsynced
  have hconstruct : built.1 = .ok () := by
    rw [hbuilt]
    decide +kernel
  have hthrown : put.1 = .ok [.error (.backend "connection lost")] := by
    rw [hput, hbuilt]
    decide +kernel
  have huploads : tornOram.UploadsOnly [.put 0 [7]] built.2.1 built.2.2 := by
    refine And.intro ?_ trivial
    rw [hbuilt]
    decide +kernel
  have hreturned : got.1 = .ok [7 :: List.replicate 31 0] := by
    rw [hgot, hput, hbuilt]
    decide +kernel
  have hcached : got.2.2.cache.entries ≠ [] := by
    rw [hgot, hput, hbuilt]
    decide +kernel
  have hflushed : synced.1 = .ok () := by
    rw [hsynced, hgot, hput, hbuilt]
    decide +kernel
  clear_value synced got put built
  obtain ⟨hinv, hcarries, hnext⟩ := uploads_lose_nothing torn_sizes (by decide) (tornBackend_lawful 4 64)
    (zeroState_fresh smallStorage 4) (hbuilt.symm.trans (Prod.ext hconstruct rfl)) (by decide) huploads
    (hput.symm.trans (Prod.ext hthrown rfl))
  obtain ⟨hcache, -⟩ := hnext (.get 0) (by decide) _ _ _ (hgot.symm.trans (Prod.ext hreturned rfl)) _ _
    (hsynced.symm.trans (Prod.ext hflushed rfl))
  exact ⟨put.2.2, got.2.2, synced.2.2, hinv, hcarries, hcached, hcache⟩

end PathOram
