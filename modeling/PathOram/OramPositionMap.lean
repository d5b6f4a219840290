/-
The position map in another ORAM (`ORAMPositionMapAdapter`).

A leaf is 8 bytes of the inner ORAM. They come back as they were put, if the block was in the inner stash or cache, or
padded to the size of a block; `get` copies the response and reads a `number` at its front. A response of fewer than 8
bytes would make it read past the end of its buffer, which the model throws as `readPastEnd`.

Besides the inner ORAM the state keeps `calls`, the calls that returned, which no method reads.

- `oramPositionMap_lawful`: **an ORAM that holds its blocks is a lawful map** of as many entries as it has blocks, and it
  throws what the inner ORAM throws.
- `WellAnswered`: in a record of calls each `get` returned the leaf of the last `set` of its block.
-/
import PathOram.Runs

namespace PathOram

open Lib

/-- the inner ORAM, and the record of the calls -/
structure OramMapState (β μ : Type) where
  oram : OramState β μ
  calls : List MapCall

def OramMapState.oramLens (β μ : Type) : Lens (OramMapState β μ) (OramState β μ) where
  get m := m.oram
  set s m := { m with oram := s }
  get_set _ _ := rfl
  set_get _ := rfl
  set_set _ _ _ := rfl

/-- the number at the front of a buffer -/
def frontNumber {σ : Type} (buffer : Bytes) : Run σ ℕ :=
  if buffer.length < 8 then throw .readPastEnd else return leNumber (buffer.take 8)

section

variable {β μ : Type}

def logMapCall (call : MapCall) : Run (OramMapState β μ) Unit :=
  Prog.modify fun m => { m with calls := m.calls ++ [call] }

/-- `ORAMPositionMapAdapter` -/
def oramPositionMap (oram : Oram β μ) : PositionMapAdapter (OramMapState β μ) where
  get block := do
    let returned ← Prog.zoom (OramMapState.oramLens β μ) (oram.get block [])
    let leaf ← frontNumber returned
    logMapCall (.get block leaf)
    return leaf
  set block leaf := do
    Prog.zoom (OramMapState.oramLens β μ) (oram.put block (leBytes 8 leaf))
    logMapCall (.set block leaf)

end

/-! ## Records of calls -/

/-- the leaf that a block was last set to -/
def lastSet (calls : List MapCall) : ℕ → Option ℕ :=
  calls.foldl (fun pos call => match call with
    | .get _ _ => pos
    | .set block leaf => Function.update pos block (some leaf)) fun _ => none

theorem lastSet_get (calls : List MapCall) (block leaf : ℕ) : lastSet (calls ++ [.get block leaf]) = lastSet calls := by
  simp [lastSet]

theorem lastSet_set (calls : List MapCall) (block leaf : ℕ) :
    lastSet (calls ++ [.set block leaf]) = Function.update (lastSet calls) block (some leaf) := by
  simp [lastSet]

/-- each `get` returned the leaf of the last `set` of its block -/
def WellAnswered (calls : List MapCall) : Prop :=
  ∀ before block leaf after, calls = before ++ .get block leaf :: after → lastSet before block = some leaf

theorem wellAnswered_nil : WellAnswered [] := by
  intro before block leaf after h
  simp at h

theorem wellAnswered_concat {calls : List MapCall} (h : WellAnswered calls) {call : MapCall}
    (hcall : ∀ block leaf, call = .get block leaf → lastSet calls block = some leaf) : WellAnswered (calls ++ [call]) := by
  intro before block leaf after he
  rcases List.eq_nil_or_concat after with rfl | ⟨after', last, rfl⟩
  · obtain ⟨rfl, hlast⟩ := List.append_inj' he rfl
    exact hcall block leaf (List.singleton_inj.1 hlast)
  · have he' : calls ++ [call] = (before ++ .get block leaf :: after') ++ [last] := by simpa using he
    exact h before block leaf after' (List.append_inj' he' rfl).1

/-! ## The contract -/

/-- the number at the front of a padded record of a number -/
theorem frontNumber_triple {σ : Type} {P : σ → Prop} {E : Exception → σ → Prop} {leaf : ℕ} (hleaf : leaf < 2 ^ 64)
    {buffer : Bytes} (h : ZeroPadded (leBytes 8 leaf) buffer) :
    Triple P (frontNumber buffer : Run σ ℕ) (fun r s => r = leaf ∧ P s) E := by
  obtain ⟨k, rfl⟩ := h
  refine Triple.ite (fun hshort => ?_) fun _ => Triple.pure fun s hs => ⟨?_, hs⟩
  · simp at hshort
  · rw [List.take_left' (length_leBytes 8 leaf), leNumber_leBytes]
    exact Nat.mod_eq_of_lt (hleaf.trans_le (by norm_num))

namespace LawfulOram

variable {β μ : Type} {O : Oram β μ} (L : LawfulOram O) {c : Contents}

theorem get_holds (hsmall : O.Small) {block : ℕ} (hb : block < 2 ^ O.height * O.Z) :
    Triple (L.HoldsOnce c) (O.get block []) (fun r s => c.Answers ⟨true, block, []⟩ r ∧ L.HoldsOnce c s)
      (fun e _ => L.Throws e) := by
  have hcall : Call.Valid O (.get block) := by
    refine ⟨fun op hop => ?_, Nat.zero_le _⟩
    rw [List.mem_singleton.1 hop]
    exact ⟨hb, Nat.zero_le _⟩
  intro w s hs
  have h := exec_triple (L := L) hsmall hcall w s hs
  rw [Oram.exec, Prog.exec_bind] at h
  rcases hr : (O.get block []).exec w s with ⟨e | r, w', s'⟩
  · rw [hr] at h
    exact Stops.throws_single h rfl
  · rw [hr] at h
    exact h

theorem put_holds (hsmall : O.Small) {block : ℕ} {data : Bytes} (hb : block < 2 ^ O.height * O.Z)
    (hd : data.length ≤ O.storage.userBlockSize) :
    Triple (L.HoldsOnce c) (O.put block data) (fun _ s => L.HoldsOnce (Function.update c block (some data)) s)
      (fun e _ => L.Throws e) := by
  have hcall : Call.Valid O (.put block data) := by
    refine ⟨fun op hop => ?_, Nat.zero_le _⟩
    rw [List.mem_singleton.1 hop]
    exact ⟨hb, hd⟩
  intro w s hs
  have h := exec_triple (L := L) hsmall hcall w s hs
  rw [Oram.exec, Prog.exec_bind] at h
  rcases hr : (O.put block data).exec w s with ⟨e | r, w', s'⟩
  · rw [hr] at h
    exact Stops.throws_single h rfl
  · rw [hr] at h
    exact h.2

/-- the entries that are known are blocks of the inner ORAM, and the record is well answered -/
structure HoldsMap (n : ℕ) (pos : ℕ → Option ℕ) (calls : List MapCall) (m : OramMapState β μ) : Prop where
  record : m.calls = calls
  answered : WellAnswered calls
  last : ∀ i leaf, pos i = some leaf → lastSet calls i = some leaf
  holds : ∃ c, L.HoldsOnce c m.oram ∧ ∀ i < n, ∀ leaf, pos i = some leaf → leaf < 2 ^ 64 ∧ c i = some (leBytes 8 leaf)

/-- **A map in an ORAM is lawful.** -/
def oramPositionMap_lawful (hsmall : O.Small) {n : ℕ} (hn : n ≤ 2 ^ O.height * O.Z) :
    LawfulMap (oramPositionMap O) n where
  Rep := L.HoldsMap n
  err := L.Throws
  get pos calls i leaf hi hp := by
    intro w m hm
    obtain ⟨c, hc, hpos⟩ := hm.holds
    obtain ⟨hleaf, hci⟩ := hpos i hi leaf hp
    have hget : Triple (fun m' => m' = m) (Prog.zoom (OramMapState.oramLens β μ) (O.get i []))
        (fun returned m' => c.Answers ⟨true, i, []⟩ returned ∧ L.HoldsMap n pos calls m') (fun e _ => L.Throws e) := by
      refine (Triple.zoom _ (get_holds L (c := c) hsmall (hi.trans_le hn)) m).conseq ?_ ?_ ?_
      · exact fun m' h => ⟨h, h ▸ hc⟩
      · rintro returned m' ⟨s, rfl, hanswer, hs⟩
        exact ⟨hanswer, hm.record, hm.answered, hm.last, c, hs, hpos⟩
      · rintro e m' ⟨s, rfl, he⟩
        exact he
    refine (hget.bind fun returned => Triple.of_pure fun hanswer => ?_) w m rfl
    have hpadded : ZeroPadded (leBytes 8 leaf) returned := by simpa [Contents.Answers, hci] using hanswer
    apply (frontNumber_triple hleaf hpadded).bind
    intro r
    apply Triple.of_pure
    intro hr
    subst hr
    refine Triple.bind (Q := fun _ => L.HoldsMap n pos (calls ++ [.get i r])) (Triple.modify fun m' hm' => ?_) fun _ =>
      Triple.pure fun _ hm' => ⟨rfl, hm'⟩
    refine ⟨congrArg (· ++ [MapCall.get i r]) hm'.record, ?_, ?_, hm'.holds⟩
    · apply wellAnswered_concat hm'.answered
      intro block leaf he
      cases he
      exact hm'.last _ _ hp
    · rw [lastSet_get]
      exact hm'.last
  set pos calls i leaf hi hleaf := by
    intro w m hm
    obtain ⟨c, hc, hpos⟩ := hm.holds
    have hfits : (leBytes 8 leaf).length ≤ O.storage.userBlockSize := by
      have htwo := O.storage.two_blocks
      rw [length_leBytes]
      exact le_trans (by decide) htwo
    have hput : Triple (fun m' => m' = m) (Prog.zoom (OramMapState.oramLens β μ) (O.put i (leBytes 8 leaf)))
        (fun _ m' => m'.calls = calls ∧ L.HoldsOnce (Function.update c i (some (leBytes 8 leaf))) m'.oram)
        (fun e _ => L.Throws e) := by
      refine (Triple.zoom _ (put_holds L (c := c) hsmall (hi.trans_le hn) hfits) m).conseq ?_ ?_ ?_
      · exact fun m' h => ⟨h, h ▸ hc⟩
      · rintro _ m' ⟨s, rfl, hs⟩
        exact ⟨hm.record, hs⟩
      · rintro e m' ⟨s, rfl, he⟩
        exact he
    refine (hput.bind fun _ => Triple.modify fun m' hm' => ?_) w m rfl
    refine ⟨congrArg (· ++ [MapCall.set i leaf]) hm'.1, ?_, fun j leaf' hj => ?_, _, hm'.2, fun j hjn leaf' hj => ?_⟩
    · apply wellAnswered_concat hm.answered
      intro block leaf he
      cases he
    · rw [lastSet_set]
      rcases eq_or_ne j i with rfl | hne
      · rwa [Function.update_self] at hj ⊢
      · rw [Function.update_of_ne hne] at hj ⊢
        exact hm.last j leaf' hj
    · rcases eq_or_ne j i with rfl | hne
      · rw [Function.update_self] at hj ⊢
        cases hj
        exact ⟨hleaf, rfl⟩
      · rw [Function.update_of_ne hne] at hj ⊢
        exact hpos j hjn leaf' hj

end LawfulOram

end PathOram
