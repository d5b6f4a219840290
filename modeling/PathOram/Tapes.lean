/-
What the random choices show in the answers.

An upload pads the payloads of the buckets that it sends, and a block that stays in the stash is left as it was put. A
get returns the copy that it finds, so where the choices of the random generator have put a block decides how long the
answer is.

- `Told`: what an access returns, given what was put before: the payload as it was put, or that payload padded, but not
  before the upload of the call that put it.
- `replies_agree`: **two runs of the same calls reply alike** if no read can see the padding (`ReadsKnown`). With payloads
  as long as a block none can.
- `replies_differ`: two runs of three calls in which the last reply has 1 byte in one and 32 in the other.
-/
import PathOram.Uploads
import PathOram.Overflow

namespace PathOram

open Lib

/-! ## Reads that see no padding -/

/-- every read is of a block that was never put, that was put as long as a block, or that was put since the last upload -/
def Known (n : ℕ) : Contents → Finset ℕ → List Op → Prop
  | _, _, [] => True
  | c, raw, op :: ops =>
    (op.read = true → op.block ∈ raw ∨ ∀ p ∈ c op.block, p.length = n) ∧ Known n (c.apply op) (unsent raw op) ops

instance (n : ℕ) : ∀ c raw ops, Decidable (Known n c raw ops)
  | _, _, [] => inferInstanceAs (Decidable True)
  | c, raw, op :: ops =>
    have := instDecidableKnown n (c.apply op) (unsent raw op) ops
    inferInstanceAs (Decidable ((op.read = true → op.block ∈ raw ∨ ∀ p ∈ c op.block, p.length = n) ∧
      Known n (c.apply op) (unsent raw op) ops))

/-- so is every read of the calls, each of which ends in an upload -/
def ReadsKnown (n : ℕ) : Contents → List Call → Prop
  | _, [] => True
  | c, call :: calls => Known n c ∅ call.ops ∧ ReadsKnown n (c.after call.ops) calls

instance (n : ℕ) : ∀ c calls, Decidable (ReadsKnown n c calls)
  | _, [] => inferInstanceAs (Decidable True)
  | c, call :: calls =>
    have := instDecidableReadsKnown n (c.after call.ops) calls
    inferInstanceAs (Decidable (Known n c ∅ call.ops ∧ ReadsKnown n (c.after call.ops) calls))

/-- every payload has n bytes -/
def Contents.Full (c : Contents) (n : ℕ) : Prop := ∀ k p, c k = some p → p.length = n

theorem Contents.Full.apply {c : Contents} {n : ℕ} (hc : c.Full n) {op : Op} (hop : op.read = false → op.data.length = n) :
    (c.apply op).Full n := by
  intro k p hk
  cases hread : op.read with
  | true =>
    rw [c.apply_read hread] at hk
    exact hc k p hk
  | false =>
    rw [c.apply_write hread, Function.update_apply] at hk
    split_ifs at hk
    · cases hk
      exact hop hread
    · exact hc k p hk

theorem Contents.Full.after {c : Contents} {n : ℕ} (hc : c.Full n) {ops : List Op}
    (hops : ∀ op ∈ ops, op.read = false → op.data.length = n) : (c.after ops).Full n := by
  induction ops generalizing c with
  | nil => exact hc
  | cons op ops ih =>
    exact ih (hc.apply (hops op List.mem_cons_self)) fun op hm => hops op (List.mem_cons_of_mem _ hm)

theorem Contents.Full.known {c : Contents} {n : ℕ} (hc : c.Full n) {ops : List Op}
    (hops : ∀ op ∈ ops, op.read = false → op.data.length = n) (raw : Finset ℕ) : Known n c raw ops := by
  induction ops generalizing c raw with
  | nil => trivial
  | cons op ops ih =>
    refine ⟨fun _ => Or.inr fun p hp => hc _ p hp, ?_⟩
    exact ih (hc.apply (hops op List.mem_cons_self)) (fun op hm => hops op (List.mem_cons_of_mem _ hm)) _

/-- payloads as long as a block need no padding -/
theorem Contents.Full.readsKnown {c : Contents} {n : ℕ} (hc : c.Full n) {calls : List Call}
    (hdata : ∀ op ∈ calls.flatMap Call.ops, op.read = false → op.data.length = n) : ReadsKnown n c calls := by
  induction calls generalizing c with
  | nil => trivial
  | cons call calls ih =>
    rw [List.flatMap_cons, List.forall_mem_append] at hdata
    exact ⟨hc.known hdata.1 ∅, ih (hc.after hdata.1) hdata.2⟩

/-! ## What an access returns -/

/-- what an access returns of blocks of n bytes, if the contents before it are c -/
def Told (n : ℕ) (raw : Finset ℕ) (c : Contents) (op : Op) (r : Bytes) : Prop :=
  if op.read then
    (c op.block = none → r = []) ∧
      ∀ p, c op.block = some p → p.length ≤ n ∧ (r = p ∨ op.block ∉ raw ∧ r = zeroPad n p)
  else r = op.data

/-- accesses in turn tell what they return -/
inductive Tells (n : ℕ) : Finset ℕ → Contents → List Op → List Bytes → Prop
  | nil (raw : Finset ℕ) (c : Contents) : Tells n raw c [] []
  | cons {raw : Finset ℕ} {c : Contents} {op : Op} {r : Bytes} {ops : List Op} {rs : List Bytes} :
      Told n raw c op r → Tells n (unsent raw op) (c.apply op) ops rs → Tells n raw c (op :: ops) (r :: rs)

section

variable {n : ℕ} {raw : Finset ℕ} {c : Contents}

/-- an access told in two runs -/
theorem Told.unique {op : Op} {r r' : Bytes} (h : Told n raw c op r) (h' : Told n raw c op r')
    (hknown : op.read = true → op.block ∈ raw ∨ ∀ p ∈ c op.block, p.length = n) : r = r' := by
  have hfound : ∀ {r}, op.read = true → Told n raw c op r → r = (c op.block).getD [] := by
    intro r hread h
    rw [Told, if_pos hread] at h
    obtain ⟨hnone, hsome⟩ := h
    cases hc : c op.block with
    | none => exact hnone hc
    | some p =>
      rcases (hsome p hc).2 with rfl | ⟨hsent, rfl⟩
      · rfl
      · exact zeroPad_of_length ((hknown hread).resolve_left hsent p hc)
  by_cases hread : op.read = true
  · rw [hfound hread h, hfound hread h']
  · rw [Told, if_neg hread] at h h'
    rw [h, h']

theorem Tells.unique {ops : List Op} {rs rs' : List Bytes} (h : Tells n raw c ops rs) (h' : Tells n raw c ops rs')
    (hknown : Known n c raw ops) : rs = rs' := by
  induction h generalizing rs' with
  | nil =>
    cases h' with
    | nil => rfl
  | cons htold _ ih =>
    cases h' with
    | cons htold' hrest' => rw [htold.unique htold' hknown.1, ih hrest' hknown.2]

end

namespace LawfulOram

section

variable {β μ : Type} {O : Oram β μ} {v v' : View} {raw : Finset ℕ} {c : Contents}

/-- **What an access returns.** -/
theorem told_accessed (L : LawfulOram O) (hsmall : O.Small) (hv : Inv O c v) (he : Exact O raw c v) {op : Op}
    (hop : op.Valid O) {r : Bytes} (ha : Accessed O v op [] r v') : Told O.storage.userBlockSize raw c op r := by
  have hanswer := (inv_accessed L hsmall hv hop ha).2
  unfold Told
  cases hread : op.read with
  | false =>
    rw [if_neg Bool.false_ne_true]
    rwa [Contents.Answers, if_neg (by simp [hread])] at hanswer
  | true =>
    rw [if_pos rfl]
    rw [Contents.Answers, if_pos hread] at hanswer
    refine ⟨fun hc => by rwa [hc] at hanswer, fun p hc => ?_⟩
    rw [hc] at hanswer
    obtain ⟨k, rfl⟩ := hanswer
    obtain ⟨leaf, mid, cs, hleaf, ⟨blocks, missing, hblocks, -, rfl⟩, hr, -⟩ := ha
    rw [updated, if_pos hread, List.append_nil] at hr
    change p ++ List.replicate k 0 = (absorb v.stash blocks op.block).getD [] at hr
    have hb : ∀ x ∈ blocks, ∃ ℓ, x ∈ v.tree ℓ := fun x hx => ((hblocks x).1 hx).imp fun _ h => h.2
    cases habsorb : absorb v.stash blocks op.block with
    | none =>
      rw [habsorb, Option.getD_none] at hr
      rw [hr]
      obtain ⟨rfl, -⟩ := List.append_eq_nil_iff.1 hr
      exact ⟨Nat.zero_le _, Or.inl rfl⟩
    | some d =>
      rw [habsorb, Option.getD_some] at hr
      have hlength : d.length ≤ O.storage.userBlockSize := (shape_absorb hv.toShape hb habsorb).2
      rw [← hr] at hlength habsorb
      refine ⟨(by simp : p.length ≤ (p ++ List.replicate k 0).length).trans hlength, ?_⟩
      obtain ⟨p', hp', hcopy⟩ := eq_or_padded ⟨p, hc, k, rfl⟩ (exact_absorb he hb habsorb)
      obtain rfl : p = p' := Option.some.inj (hc.symm.trans hp')
      exact hcopy

theorem tells_accessRun (L : LawfulOram O) (hsmall : O.Small) {ops : List Op} {rs : List Bytes} (h : AccessRun O v ops rs v')
    (hv : Inv O c v) (he : Exact O raw c v) (hops : ∀ op ∈ ops, op.Valid O) : Tells O.storage.userBlockSize raw c ops rs := by
  induction h generalizing c raw with
  | nil => exact Tells.nil raw c
  | cons ha _ ih =>
    have hop := hops _ List.mem_cons_self
    have hrest := ih (inv_accessed L hsmall hv hop ha).1 (exact_accessed L hv he ha) fun op hm =>
      hops op (List.mem_cons_of_mem _ hm)
    exact Tells.cons (told_accessed L hsmall hv he hop ha) hrest

end

/-! ## Calls and runs -/

variable {β : Type} {mapCapacity : ℕ} {O : Oram β (PositionArray mapCapacity)} {L : LawfulOram O} {c : Contents}
  {s s' : OramState β (PositionArray mapCapacity)} {w w' : World}

/-- **What a call returns.** -/
theorem exec_told (hL : L.OnArray) (hsmall : O.Small) {call : Call} (hcall : call.Valid O) (hs : L.KeepsOnce c s)
    {reply : Reply} (hexec : (O.exec call).exec w s = (.ok reply, w', s')) :
    ∃ rs, reply = call.reply rs ∧ Tells O.storage.userBlockSize ∅ c call.ops rs ∧ L.KeepsOnce (c.after call.ops) s' := by
  rw [exec_eq] at hexec
  obtain ⟨rs, w₁, s₁, haccesses, hexec⟩ := Prog.exec_bind_inv hexec
  obtain ⟨_, w₂, s₂, hsync, hpure⟩ := Prog.exec_bind_inv hexec
  have hkeeps : L.KeepsOnce (c.after call.ops) s₂ :=
    (syncCache_keepsOnce hL).ok (accesses_keepsOnce hsmall hcall hs haccesses) hsync
  cases hpure
  obtain ⟨v, hv, -, he, hs⟩ := hs
  obtain ⟨v', ⟨v₁, hp, hr⟩, -⟩ := Triple.ok (accesses_served hv.toShape hcall) hs haccesses
  exact ⟨rs, rfl, tells_accessRun L hsmall hr (inv_prepared hv hp) (exact_prepared he hp) hcall.1, hkeeps⟩

/-- **Two runs of the same calls reply alike** if no read can see the padding. -/
theorem run_agrees (hL : L.OnArray) (hsmall : O.Small) {calls : List Call} (hcalls : ∀ call ∈ calls, call.Valid O)
    (hknown : ReadsKnown O.storage.userBlockSize c calls) {t t' : OramState β (PositionArray mapCapacity)} {u u' : World}
    (hs : L.KeepsOnce c s) (ht : L.KeepsOnce c t) {replies replies' : List Reply}
    (hrun : (O.run calls).exec w s = (.ok replies, w', s')) (hrun' : (O.run calls).exec u t = (.ok replies', u', t')) :
    replies = replies' := by
  induction calls generalizing c w s u t replies replies' with
  | nil =>
    cases hrun
    cases hrun'
    rfl
  | cons call calls ih =>
    rw [Oram.run, List.mapM_cons] at hrun hrun'
    obtain ⟨reply, w₁, s₁, hexec, hrun⟩ := Prog.exec_bind_inv hrun
    obtain ⟨rest, w₂, s₂, hrest, hpure⟩ := Prog.exec_bind_inv hrun
    cases hpure
    obtain ⟨reply', u₁, t₁, hexec', hrun'⟩ := Prog.exec_bind_inv hrun'
    obtain ⟨rest', u₂, t₂, hrest', hpure'⟩ := Prog.exec_bind_inv hrun'
    cases hpure'
    have hcall := hcalls call List.mem_cons_self
    obtain ⟨rs, rfl, htells, hs₁⟩ := exec_told hL hsmall hcall hs hexec
    obtain ⟨rs', rfl, htells', ht₁⟩ := exec_told hL hsmall hcall ht hexec'
    rw [htells.unique htells' hknown.1,
      ih (fun c hc => hcalls c (List.mem_cons_of_mem _ hc)) hknown.2 hs₁ ht₁ hrest hrest']

end LawfulOram

/-! ## The result -/

/-- **What the random choices show.** Two ORAMs of the same sizes are constructed and called in the same way, under any
two worlds. If each read is of a block that was never put, that was last put as long as a block, or that the same call has
put, their replies agree byte for byte when both return. With an endless batch neither returns. -/
theorem replies_agree {β : Type} {S : StorageAdapter β} {mapCapacity stashCapacity height batchSize : ℕ}
    (h : Sizes S.toAbsStorageAdapter S.crypto mapCapacity height) (hsmall : 2 ^ height * S.Z ≤ 2 ^ 31)
    (L : LawfulBackend S.backend S.capacity S.blockSize) {calls : List Call}
    (hcalls : ∀ call ∈ calls, call.Valid (arrayOram S mapCapacity stashCapacity height batchSize)) :
    (ReadsKnown S.userBlockSize (fun _ => none) calls → ∀ (w₀ u₀ : World) (s₀ t₀ : OramState β (PositionArray mapCapacity)),
      Fresh s₀ → Fresh t₀ → ∀ replies replies',
      (((arrayOram S mapCapacity stashCapacity height batchSize).session calls).exec w₀ s₀).1 = .ok replies →
      (((arrayOram S mapCapacity stashCapacity height batchSize).session calls).exec u₀ t₀).1 = .ok replies' →
      replies = replies') ∧
    ((∃ call ∈ calls, call.Endless) → ∀ (w₀ : World) (s₀ : OramState β (PositionArray mapCapacity)) (replies : List Reply),
      (((arrayOram S mapCapacity stashCapacity height batchSize).session calls).exec w₀ s₀).1 ≠ .ok replies) := by
  refine ⟨fun hknown w₀ u₀ s₀ t₀ hs₀ ht₀ replies replies' hrun hrun' => ?_, fun ⟨call, hm, hlong⟩ w₀ s₀ replies hrun => ?_⟩
  · obtain ⟨_, w₁, s₁, hs₁, hrun⟩ := Prog.exec_bind_inv (Prog.exec_eq hrun)
    obtain ⟨_, u₁, t₁, ht₁, hrun'⟩ := Prog.exec_bind_inv (Prog.exec_eq hrun')
    have hconstruct := LawfulOram.construct_triple (arrayOram_lawful h L stashCapacity batchSize)
    have hs := LawfulOram.KeepsOnce.of_empty (hconstruct.ok (arrayOram_fresh h L stashCapacity batchSize hs₀) hs₁)
    have ht := LawfulOram.KeepsOnce.of_empty (hconstruct.ok (arrayOram_fresh h L stashCapacity batchSize ht₀) ht₁)
    exact LawfulOram.run_agrees (arrayOram_onArray h L stashCapacity batchSize) hsmall hcalls hknown hs ht hrun hrun'
  · exact (LawfulOram.session_ends calls).ok trivial (Prog.exec_eq hrun) call hm hlong

/-- a world in which every draw is one -/
def onesWorld : World := ⟨fun _ => 1, fun _ => 0⟩

/-- **The random choices show in an answer.** On the tiny ORAM two blocks are put, of which the bucket has room for one. The
get of the second returns the payload padded if the draws of one world shuffle it first, and as it was put if those of
another do not. -/
theorem replies_differ :
    (((inMemoryOram tinyStorage plainCrypto 2 6 1 4).session [.put 0 [1], .put 1 [2], .get 1]).exec zeroWorld
        (zeroState tinyStorage 2)).1 = .ok [.done, .done, .got (2 :: List.replicate 31 0)] ∧
      (((inMemoryOram tinyStorage plainCrypto 2 6 1 4).session [.put 0 [1], .put 1 [2], .get 1]).exec onesWorld
        (zeroState tinyStorage 2)).1 = .ok [.done, .done, .got [2]] ∧
      zeroWorld.iter = onesWorld.iter ∧ (Reply.got (2 :: List.replicate 31 0) ≠ .got [2]) := by
  refine ⟨?_, ?_, rfl, ?_⟩
  · decide +kernel
  · decide +kernel
  · decide +kernel

/-- two full blocks, and a batch that puts a short one and reads it -/
def knownCalls : List Call :=
  [.put 0 (List.replicate 32 7), .put 1 (List.replicate 32 8), .multiple [(0, [2]), (0, []), (1, [])]]

theorem knownCalls_valid : ∀ call ∈ knownCalls, call.Valid (inMemoryOram tinyStorage plainCrypto 2 6 1 4) := by decide

/-- the two worlds place the blocks otherwise, and the replies are the same -/
theorem replies_agree_tiny : ∃ replies w s u t,
    ((inMemoryOram tinyStorage plainCrypto 2 6 1 4).session knownCalls).exec zeroWorld (zeroState tinyStorage 2) =
        (.ok replies, w, s) ∧
      ((inMemoryOram tinyStorage plainCrypto 2 6 1 4).session knownCalls).exec onesWorld (zeroState tinyStorage 2) =
        (.ok replies, u, t) ∧
      s.stash.lookup 0 ≠ t.stash.lookup 0 := by
  set zeros := ((inMemoryOram tinyStorage plainCrypto 2 6 1 4).session knownCalls).exec zeroWorld (zeroState tinyStorage 2)
    with hzeros
  set ones := ((inMemoryOram tinyStorage plainCrypto 2 6 1 4).session knownCalls).exec onesWorld (zeroState tinyStorage 2)
    with hones
  have hok : zeros.1.isOk = true := by
    rw [hzeros]
    decide +kernel
  have hok' : ones.1.isOk = true := by
    rw [hones]
    decide +kernel
  have hplaced : zeros.2.2.stash.lookup 0 ≠ ones.2.2.stash.lookup 0 := by
    rw [hzeros, hones]
    decide +kernel
  clear_value zeros ones
  obtain ⟨e | replies, w, s⟩ := zeros
  · cases hok
  obtain ⟨e | replies', u, t⟩ := ones
  · cases hok'
  have hsame : replies = replies' := by
    refine (replies_agree tiny_sizes (by decide) (inMemoryBackend_lawful 2 64) knownCalls_valid).1 (by decide) zeroWorld
      onesWorld _ _ (zeroState_fresh tinyStorage 2) (zeroState_fresh tinyStorage 2) replies replies' ?_ ?_
    · exact congrArg Prod.fst hzeros.symm
    · exact congrArg Prod.fst hones.symm
  exact ⟨replies, w, s, u, t, rfl, by rw [hsame], hplaced⟩

end PathOram
