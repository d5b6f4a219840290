/-
Texts as payloads.

`fromText` pads a text to a block, and `toText` takes from a block what stands before its first NUL, without the spaces at
the end. Nothing tells the spaces of the padding from those of a text, nor a NUL of a text from its end, so that a text is
read as it is `shown`.

- `toText_fromText_iff`: **a text comes back as it was if and only if** it is shorter than a block, has no NUL and does not
  end in a space.
- `texts_answered`: **an ORAM of texts is a map of texts**, whatever the blocks have been through: padded by an upload or
  not.
-/
import PathOram.Tapes

namespace PathOram

open Lib

/-! ## One text -/

/-- what a reader sees of a text -/
def shown (text : Bytes) : Bytes := trimRight (cString text)

theorem mem_cString {c : UInt8} {buffer : Bytes} (h : c ∈ cString buffer) : c ∈ buffer ∧ c ≠ 0 :=
  ⟨(List.takeWhile_prefix _).subset h, by simpa using List.mem_takeWhile_imp h⟩

theorem cString_eq_self_iff {text : Bytes} : cString text = text ↔ 0 ∉ text := by
  rw [cString, List.takeWhile_eq_self_iff]
  simp only [ne_eq, decide_eq_true_eq]
  exact ⟨fun h hmem => h 0 hmem rfl, fun h c hc he => h (he ▸ hc)⟩

theorem trimRight_append {text spaces : Bytes} (h : ∀ c ∈ spaces, isSpace c = true) :
    trimRight (text ++ spaces) = trimRight text := by
  rw [trimRight, List.rdropWhile, List.reverse_append, List.dropWhile_append_of_pos fun c hc => h c (List.mem_reverse.1 hc)]
  rfl

/-- what follows a text is not seen if it is spaces and NULs -/
theorem shown_append {text tail : Bytes} (h : ∀ c ∈ tail, c ≠ 0 → isSpace c = true) : shown (text ++ tail) = shown text := by
  unfold shown
  rw [cString, List.takeWhile_append]
  split_ifs with hlength
  · have hself : cString text = text := (List.takeWhile_prefix _).eq_of_length hlength
    rw [hself]
    apply trimRight_append
    intro c hc
    obtain ⟨hmem, hne⟩ := mem_cString hc
    exact h c hmem hne
  · rfl

/-- a text is seen as it is if it has no NUL and does not end in a space -/
theorem shown_eq_self_iff {text : Bytes} :
    shown text = text ↔ 0 ∉ text ∧ ∀ hne : text ≠ [], isSpace (text.getLast hne) = false := by
  constructor
  · intro h
    have htrim : (shown text).length ≤ (cString text).length := (List.rdropWhile_prefix _ _).length_le
    have hcut : cString text = text :=
      (List.takeWhile_prefix _).eq_of_length_le (by rw [h] at htrim; exact htrim)
    rw [shown, hcut, trimRight, List.rdropWhile_eq_self_iff] at h
    exact ⟨cString_eq_self_iff.1 hcut, by simpa using h⟩
  · intro ⟨hnul, hlast⟩
    rw [shown, cString_eq_self_iff.2 hnul, trimRight, List.rdropWhile_eq_self_iff]
    simpa using hlast

theorem fromText_ne_nil (text : Bytes) (blockSize : ℕ) : fromText text blockSize ≠ [] := by
  simp [fromText]

theorem lt_length_fromText (text : Bytes) (blockSize : ℕ) : text.length < (fromText text blockSize).length := by
  rw [fromText, List.length_append, List.length_append, List.length_singleton]
  omega

/-- a negative width is none -/
theorem toNat_toInt_le (n : ℕ) : (toInt n).toNat ≤ n := by
  have hmod : ∀ m : ℕ, ((n : ℤ).bmod m).toNat ≤ n := by
    intro m
    have hle : n % m ≤ n := Nat.mod_le n m
    rw [Int.bmod_def, ← Int.natCast_emod]
    split_ifs <;> omega
  exact hmod _

/-- a text that is shorter than a block fits into it -/
theorem length_fromText_le {text : Bytes} {blockSize : ℕ} (h : text.length < blockSize) (hsize : blockSize < 2 ^ 64) :
    (fromText text blockSize).length ≤ blockSize := by
  have hwidth : (toInt (sub64 blockSize 1)).toNat ≤ blockSize - 1 := by
    rw [sub64_of_le (by omega) hsize]
    exact toNat_toInt_le _
  rw [fromText, List.length_append, List.length_append, List.length_singleton, List.length_replicate]
  omega

/-- a text in a buffer with room for one character more, and nothing after it but spaces and NULs -/
theorem toText_append {text tail : Bytes} {n : ℕ} (h : ∀ c ∈ tail, c ≠ 0 → isSpace c = true) (htext : text.length < n)
    (hn : (text ++ tail).length ≤ n) : toText (text ++ tail) n = .ok (shown text) := by
  have hroom : ¬ (n < (text ++ tail).length ∨ n = 0) := by omega
  -- the last character of the buffer is not of the text
  have hbuffer : patch (patch (List.replicate n 0) 0 (text ++ tail)) (n - 1) [0] =
      text ++ ((tail ++ List.replicate (n - (text ++ tail).length) 0).take (n - 1 - text.length) ++ [0]) := by
    have hlength : (zeroPad n (text ++ tail)).length = n := length_zeroPad hn
    have hlast := patch_last (l := zeroPad n (text ++ tail)) (a := 0) (by omega)
    rw [hlength] at hlast
    rw [patch_zeros hn, hlast, zeroPad, List.append_assoc, List.take_append, List.take_of_length_le (by omega),
      List.append_assoc]
  rw [toText, if_neg hroom]
  dsimp only
  rw [hbuffer]
  congr 1
  apply shown_append
  intro c hc hne
  rcases List.mem_append.1 hc with hc | hc
  · rcases List.mem_append.1 (List.mem_of_mem_take hc) with hc | hc
    · exact h c hc hne
    · exact absurd (List.eq_of_mem_replicate hc) hne
  · exact absurd (List.mem_singleton.1 hc) hne

/-- **What a block shows of the text that was put into it**, in any buffer that it fits into, padded or not. -/
theorem toText_fromText {text data : Bytes} {blockSize n : ℕ} (h : ZeroPadded (fromText text blockSize) data)
    (hn : data.length ≤ n) : toText data n = .ok (shown text) := by
  obtain ⟨k, rfl⟩ := h
  have htext : text.length < n := by
    have hlt := lt_length_fromText text blockSize
    rw [List.length_append] at hn
    omega
  rw [fromText, List.append_assoc, List.append_assoc] at hn ⊢
  apply toText_append _ htext hn
  intro c hc hne
  simp only [List.mem_append, List.mem_replicate, List.mem_singleton] at hc
  rcases hc with ⟨-, rfl⟩ | rfl | ⟨-, rfl⟩
  · rfl
  · rfl
  · exact absurd rfl hne

/-- a block that was never put holds the empty text -/
theorem toText_nil {n : ℕ} (h : 0 < n) : toText [] n = .ok [] := by
  have hempty : toText ([] ++ []) n = .ok (shown []) := toText_append (fun _ hc => nomatch hc) h (Nat.zero_le n)
  exact hempty

/-- **The round trip of a text.** -/
theorem toText_fromText_iff {text : Bytes} {blockSize : ℕ} (hsize : blockSize < 2 ^ 64) :
    toText (fromText text blockSize) blockSize = .ok text ↔
      text.length < blockSize ∧ 0 ∉ text ∧ ∀ hne : text ≠ [], isSpace (text.getLast hne) = false := by
  by_cases hlength : text.length < blockSize
  · rw [toText_fromText (ZeroPadded.refl _) (length_fromText_le hlength hsize), Except.ok.injEq, shown_eq_self_iff]
    simp [hlength]
  · have hover : blockSize < (fromText text blockSize).length := (not_lt.1 hlength).trans_lt (lt_length_fromText text blockSize)
    rw [toText, if_pos (Or.inl hover)]
    simp [hlength]

/-- two characters in a block of 8 -/
theorem toText_fromText_small : toText (fromText [104, 105] 8) 8 = .ok [104, 105] :=
  (toText_fromText_iff (by norm_num)).2 ⟨by decide, by decide, by decide⟩

/-! ## A map of texts -/

/-- an access in texts: the ID, and the text if one is put -/
abbrev TextOp := ℕ × Option Bytes

/-- the texts that a reader sees -/
abbrev Texts := ℕ → Bytes

namespace Texts

def apply (m : Texts) (op : TextOp) : Texts :=
  match op.2 with
  | none => m
  | some text => Function.update m op.1 (shown text)

def after (m : Texts) (ops : List TextOp) : Texts := ops.foldl apply m

/-- answers to accesses in turn; a put is answered with its own text -/
def answers : Texts → List TextOp → List Bytes
  | _, [] => []
  | m, op :: ops => m.apply op op.1 :: answers (m.apply op) ops

end Texts

/-- a call in texts -/
inductive TextCall where
  | get (block : ℕ)
  | put (block : ℕ) (text : Bytes)
  | multiple (requests : List TextOp)

namespace TextCall

def ops : TextCall → List TextOp
  | .get block => [(block, none)]
  | .put block text => [(block, some text)]
  | .multiple requests => requests

/-- the call that a caller makes, with texts in blocks of a size; a request without a payload is a get -/
def call (blockSize : ℕ) : TextCall → Call
  | .get block => .get block
  | .put block text => .put block (fromText text blockSize)
  | .multiple requests => .multiple (requests.map fun r => (r.1, r.2.elim [] fun text => fromText text blockSize))

/-- the texts in the reply of a map of texts -/
def answers (m : Texts) : TextCall → List Bytes
  | .get block => m.answers [(block, none)]
  | .put _ _ => []
  | .multiple requests => m.answers requests

end TextCall

/-- replies of a map of texts to calls in turn -/
def Texts.replies : Texts → List TextCall → List (List Bytes)
  | _, [] => []
  | m, call :: calls => call.answers m :: replies (m.after call.ops) calls

/-- the texts that are read from a reply -/
def Reply.texts (blockSize : ℕ) : Reply → Except Exception (List Bytes)
  | .got response => do return [← toText response blockSize]
  | .done => .ok []
  | .many response => response.mapM fun r => toText r blockSize

/-- the access to the ORAM -/
def textOp (blockSize : ℕ) (op : TextOp) : Op :=
  ⟨op.2.isNone, op.1, op.2.elim [] fun text => fromText text blockSize⟩

theorem TextCall.ops_call (blockSize : ℕ) (call : TextCall) :
    (call.call blockSize).ops = call.ops.map (textOp blockSize) := by
  cases call with
  | get block => rfl
  | put block text => rfl
  | multiple requests =>
    rw [TextCall.call, TextCall.ops, Call.ops, List.map_map]
    apply List.map_congr_left
    intro r _
    obtain ⟨block, text⟩ := r
    cases text with
    | none => rfl
    | some text => simp [textOp, fromText_ne_nil]

/-! ## The ORAM is one -/

/-- the texts are those that the contents show -/
def Texts.Reads (blockSize : ℕ) (c : Contents) (m : Texts) : Prop :=
  ∀ id, (c id = none → m id = []) ∧ ∀ p, c id = some p → ∃ text, p = fromText text blockSize ∧ m id = shown text

theorem Texts.Reads.apply {blockSize : ℕ} {c : Contents} {m : Texts} (h : m.Reads blockSize c) (op : TextOp) :
    (m.apply op).Reads blockSize (c.apply (textOp blockSize op)) := by
  obtain ⟨block, text⟩ := op
  cases text with
  | none => exact h
  | some text =>
    intro id
    change (Function.update c block (some (fromText text blockSize)) id = none →
        Function.update m block (shown text) id = []) ∧
      ∀ p, Function.update c block (some (fromText text blockSize)) id = some p →
        ∃ text', p = fromText text' blockSize ∧ Function.update m block (shown text) id = shown text'
    rw [Function.update_apply, Function.update_apply]
    split_ifs
    · exact ⟨fun hnone => absurd hnone (by simp), fun p hp => ⟨text, (Option.some.inj hp).symm, rfl⟩⟩
    · exact h id

theorem Texts.Reads.after {blockSize : ℕ} {c : Contents} {m : Texts} (h : m.Reads blockSize c) (ops : List TextOp) :
    (m.after ops).Reads blockSize (c.after (ops.map (textOp blockSize))) := by
  induction ops generalizing c m with
  | nil => exact h
  | cons op ops ih => exact ih (h.apply op)

section

variable {c : Contents} {m : Texts} {blockSize n : ℕ} {raw : Finset ℕ}

/-- one access -/
theorem Told.text (hpos : 0 < n) {op : TextOp} {r : Bytes}
    (h : Told n raw c (textOp blockSize op) r) (hdata : (textOp blockSize op).data.length ≤ n) (hm : m.Reads blockSize c) :
    toText r n = .ok (m.apply op op.1) := by
  obtain ⟨block, text⟩ := op
  unfold Told at h
  cases text with
  | none =>
    rw [if_pos (by rfl)] at h
    obtain ⟨hnothing, hfound⟩ := h
    obtain ⟨hnone, hsome⟩ := hm block
    change _ = Except.ok (m block)
    cases hc : c block with
    | none => rw [hnothing hc, toText_nil hpos, hnone hc]
    | some p =>
      obtain ⟨hle, hr⟩ := hfound p hc
      obtain ⟨text, rfl, htext⟩ := hsome p hc
      rw [htext]
      rcases hr with rfl | ⟨-, rfl⟩
      · exact toText_fromText (ZeroPadded.refl _) hle
      · exact toText_fromText (zeroPadded_zeroPad _ _) (length_zeroPad hle).le
  | some text =>
    rw [if_neg (by simp [textOp])] at h
    have hself : m.apply (block, some text) block = shown text := Function.update_self _ _ _
    rw [h, hself]
    exact toText_fromText (ZeroPadded.refl _) hdata

/-- accesses in turn -/
theorem Tells.texts (hpos : 0 < n) {ops : List TextOp} {rs : List Bytes}
    (h : Tells n raw c (ops.map (textOp blockSize)) rs)
    (hdata : ∀ op ∈ ops.map (textOp blockSize), op.data.length ≤ n) (hm : m.Reads blockSize c) :
    rs.mapM (fun r => toText r n) = .ok (m.answers ops) := by
  induction ops generalizing raw c m rs with
  | nil =>
    cases h
    rfl
  | cons op ops ih =>
    cases h with
    | cons htold hrest =>
      rw [List.map_cons, List.forall_mem_cons] at hdata
      rw [List.mapM_cons, htold.text hpos hdata.1 hm, ih hrest hdata.2 (hm.apply op)]
      rfl

end

namespace LawfulOram

variable {β : Type} {mapCapacity : ℕ} {O : Oram β (PositionArray mapCapacity)} {L : LawfulOram O} {c : Contents}
  {m : Texts} {s s' : OramState β (PositionArray mapCapacity)} {w w' : World} {blockSize : ℕ}

/-- one call -/
theorem exec_texts (hL : L.OnArray) (hsmall : O.Small) {call : TextCall} (hcall : (call.call blockSize).Valid O)
    (hs : L.KeepsOnce c s) (hm : m.Reads blockSize c) {reply : Reply}
    (hexec : (O.exec (call.call blockSize)).exec w s = (.ok reply, w', s')) :
    reply.texts O.storage.userBlockSize = .ok (call.answers m) ∧
      L.KeepsOnce (c.after (call.ops.map (textOp blockSize))) s' := by
  obtain ⟨rs, rfl, htells, hs'⟩ := exec_told hL hsmall hcall hs hexec
  rw [TextCall.ops_call] at htells hs'
  refine ⟨?_, hs'⟩
  have hdata : ∀ op ∈ call.ops.map (textOp blockSize), op.data.length ≤ O.storage.userBlockSize := by
    intro op hop
    rw [← TextCall.ops_call] at hop
    exact (hcall.1 op hop).data_le
  have hpos : 0 < O.storage.userBlockSize := lt_of_lt_of_le (by norm_num [aesBlockSize]) O.storage.two_blocks
  have htexts := htells.texts hpos hdata hm
  cases call with
  | put block text => rfl
  | multiple requests => exact htexts
  | get block =>
    -- a get has one response
    cases htells with
    | cons _ hrest =>
      cases hrest with
      | nil => exact htexts

/-- **A run** from contents that the texts show. -/
theorem run_texts (hL : L.OnArray) (hsmall : O.Small) {calls : List TextCall}
    (hcalls : ∀ call ∈ calls, (call.call blockSize).Valid O) (hs : L.KeepsOnce c s) (hm : m.Reads blockSize c)
    {replies : List Reply} (hrun : (O.run (calls.map (TextCall.call blockSize))).exec w s = (.ok replies, w', s')) :
    replies.mapM (Reply.texts O.storage.userBlockSize) = .ok (m.replies calls) := by
  induction calls generalizing c m w s replies with
  | nil =>
    cases hrun
    rfl
  | cons call calls ih =>
    rw [List.map_cons, Oram.run, List.mapM_cons] at hrun
    obtain ⟨reply, w₁, s₁, hexec, hrun⟩ := Prog.exec_bind_inv hrun
    obtain ⟨rest, w₂, s₂, hrest, hpure⟩ := Prog.exec_bind_inv hrun
    cases hpure
    obtain ⟨hreply, hs₁⟩ := exec_texts hL hsmall (hcalls call List.mem_cons_self) hs hm hexec
    have hreplies := ih (fun c hc => hcalls c (List.mem_cons_of_mem _ hc)) hs₁ (hm.after call.ops) hrest
    rw [List.mapM_cons, hreply, hreplies]
    rfl

end LawfulOram

/-- **An ORAM of texts is a map of texts.** Texts are put in blocks of one size, and read from what the ORAM returns by a
caller that knows the size of its blocks. Whatever they have been through, a session that returns shows the texts that were
last put, as `shown`, and the empty text for a block that was never put. -/
theorem texts_answered {β : Type} {S : StorageAdapter β} {mapCapacity stashCapacity height batchSize : ℕ}
    (h : Sizes S.toAbsStorageAdapter S.crypto mapCapacity height) (hsmall : 2 ^ height * S.Z ≤ 2 ^ 31)
    (L : LawfulBackend S.backend S.capacity S.blockSize) {s₀ s : OramState β (PositionArray mapCapacity)} {w₀ w : World}
    (hfresh : Fresh s₀) {blockSize : ℕ} {calls : List TextCall}
    (hcalls : ∀ call ∈ calls, (call.call blockSize).Valid (arrayOram S mapCapacity stashCapacity height batchSize))
    {replies : List Reply}
    (hrun : ((arrayOram S mapCapacity stashCapacity height batchSize).session (calls.map (TextCall.call blockSize))).exec
      w₀ s₀ = (.ok replies, w, s)) :
    replies.mapM (Reply.texts S.userBlockSize) = .ok (Texts.replies (fun _ => []) calls) := by
  obtain ⟨_, w₁, s₁, hbuilt, hrun⟩ := Prog.exec_bind_inv hrun
  have hconstruct := LawfulOram.construct_triple (arrayOram_lawful h L stashCapacity batchSize)
  have hs := LawfulOram.KeepsOnce.of_empty (hconstruct.ok (arrayOram_fresh h L stashCapacity batchSize hfresh) hbuilt)
  exact LawfulOram.run_texts (arrayOram_onArray h L stashCapacity batchSize) hsmall hcalls hs
    (fun id => ⟨fun _ => rfl, fun p hp => nomatch hp⟩) hrun

/-- texts on the tiny ORAM, of which one ends in a space -/
def tinyTexts : List TextCall :=
  [.put 0 [104, 105, 32], .multiple [(0, none), (1, some [111])], .get 1]

theorem tiny_texts :
    (((inMemoryOram tinyStorage plainCrypto 2 6 1 4).session (tinyTexts.map (TextCall.call 32))).exec zeroWorld
      (zeroState tinyStorage 2)).1 =
      .ok [.done, .many [fromText [104, 105, 32] 32, fromText [111] 32], .got (fromText [111] 32)] := by decide +kernel

theorem texts_answered_tiny :
    [Reply.done, .many [fromText [104, 105, 32] 32, fromText [111] 32], .got (fromText [111] 32)].mapM (Reply.texts 32) =
      .ok [[], [[104, 105], [111]], [[111]]] :=
  texts_answered tiny_sizes (by decide) (inMemoryBackend_lawful 2 64) (zeroState_fresh tinyStorage 2) (by decide +kernel)
    (Prog.exec_eq tiny_texts)

end PathOram
