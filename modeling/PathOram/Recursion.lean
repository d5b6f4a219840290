/-
ORAMs whose position maps are ORAMs, to any depth.

`Recursive M n` is a map of n entries: an array, or an ORAM of at least n blocks over a map of its own. The induction over
it gives each level its contract (`Recursive.lawful`) from the contract of the level below.

- `Recursive.rep_of_initialised`: a map whose levels are constructed from the bottom up keeps its contract.
- `recursive_answers`: **an ORAM over a recursive map is a map**, as one over an array is. On every level each `get` of
  the map returns the leaf last set, and nothing is thrown but what the storages throw and the overflow of a stash.
- `recursive_batch_without_end`: as over an array, a batch of 2^32 requests never returns.
-/
import PathOram.OramPositionMap
import PathOram.Correctness

namespace PathOram

open Lib

/-- a map of n entries: in memory, or in an ORAM that is large enough. The provider of the ORAM does not claim to read past
the end of a buffer. -/
inductive Recursive : {μ : Type} → PositionMapAdapter μ → ℕ → Type 1
  | array {capacity n : ℕ} (large : n ≤ capacity) : Recursive (inMemoryPositionMap capacity) n
  | oram {β μ : Type} {oram : Oram β μ} {n : ℕ} (sized : oram.Sized) (small : oram.Small)
      (storage : LawfulBackend oram.storage.backend oram.storage.capacity oram.storage.blockSize)
      (own : ¬ storage.fault .readPastEnd) (map : Recursive oram.map (2 ^ oram.height * oram.Z))
      (large : n ≤ 2 ^ oram.height * oram.Z) : Recursive (oramPositionMap oram) n

namespace Recursive

variable {μ : Type} {M : PositionMapAdapter μ} {n : ℕ}

/-- **Every level keeps its contract.** -/
def lawful : {μ : Type} → {M : PositionMapAdapter μ} → {n : ℕ} → Recursive M n → LawfulMap M n
  | _, _, _, array large => inMemoryPositionMap_lawful large
  | _, _, _, oram sized small storage _ map large =>
    LawfulOram.oramPositionMap_lawful { sized with storage := storage, map := map.lawful } small large

/-- what a level throws: the overflow of its stash, if that has no room for all blocks of the level, what its storage throws,
and what the levels below it throw -/
def Fault : {μ : Type} → {M : PositionMapAdapter μ} → {n : ℕ} → Recursive M n → Exception → Prop
  | _, _, _, array _, _ => False
  | _, _, _, @oram _ _ O _ _ _ storage _ map _, e =>
    map.Fault e ∨ storage.fault e ∨ LawfulOram.IsOverflow e ∧ O.stash.capacity < 2 ^ O.height * O.Z

/-- the levels are constructed, each over the constructed level below it, and nothing was asked of them since -/
def Initialised : {μ : Type} → {M : PositionMapAdapter μ} → {n : ℕ} → Recursive M n → μ → Prop
  | _, _, _, array _, _ => True
  | _, _, _, @oram β μ O _ _ _ _ _ map _, m => m.calls = [] ∧ ∃ (s₀ : OramState β μ) (w₀ w : World),
      PathOram.Fresh s₀ ∧ map.Initialised s₀.map ∧ O.construct.exec w₀ s₀ = (.ok (), w, m.oram)

/-- on every level each `get` has returned the leaf that was last set -/
def Consistent : {μ : Type} → {M : PositionMapAdapter μ} → {n : ℕ} → Recursive M n → μ → Prop
  | _, _, _, array _, _ => True
  | _, _, _, oram _ _ _ _ map _, m => WellAnswered m.calls ∧ map.Consistent m.oram.map

theorem err_iff (T : Recursive M n) (e : Exception) : T.lawful.err e ↔ T.Fault e := by
  induction T with
  | array large => exact Iff.rfl
  | oram sized small storage own map large ih => exact or_congr_left ih

theorem not_readPastEnd (T : Recursive M n) : ¬ T.Fault .readPastEnd := by
  induction T with
  | array large => exact id
  | oram sized small storage own map large ih =>
    rintro (h | h | ⟨⟨capacity, h⟩, -⟩)
    · exact ih h
    · exact own h
    · cases h

/-- constructed levels keep their contract from the start -/
theorem rep_of_initialised (T : Recursive M n) {m : μ} (h : T.Initialised m) :
    ∃ calls, T.lawful.Rep (fun _ => none) calls m := by
  induction T with
  | array large => exact ⟨[], fun i leaf _ hi => by cases hi⟩
  | oram sized small storage own map large ih =>
    obtain ⟨hcalls, s₀, w₀, w, hfresh, hmap, hconstruct⟩ := h
    have hholds := (LawfulOram.construct_triple { sized with storage := storage, map := map.lawful }).ok
      ⟨hfresh.stash, hfresh.cache, ih hmap⟩ hconstruct
    refine ⟨[], { record := hcalls, answered := wellAnswered_nil, last := ?_, holds := ⟨_, hholds, ?_⟩ }⟩
    · intro i leaf hi
      cases hi
    · intro i _ leaf hi
      cases hi

/-- a map that keeps its contract is well answered on every level -/
theorem consistent_of_rep (T : Recursive M n) {pos : ℕ → Option ℕ} {calls : List MapCall} {m : μ}
    (h : T.lawful.Rep pos calls m) : T.Consistent m := by
  induction T generalizing pos calls with
  | array large => trivial
  | oram sized small storage own map large ih =>
    obtain ⟨hrecord, hanswered, -, c, ⟨v, -, -, -, hsees⟩, -⟩ := h
    obtain ⟨p, hp, -⟩ := hsees.map
    exact ⟨hrecord ▸ hanswered, ih hp⟩

end Recursive

section

variable {β μ : Type} {O : Oram β μ} (sized : O.Sized) (small : O.Small)
  (storage : LawfulBackend O.storage.backend O.storage.capacity O.storage.blockSize)
  (T : Recursive O.map (2 ^ O.height * O.Z)) {s₀ s : OramState β μ} {w₀ w : World} {calls : List Call}
  {r : Except Exception (List Reply)}

include sized small

/-- a session over constructed levels, by its outcome -/
theorem recursive_outcome (hfresh : Fresh s₀) (hmap : T.Initialised s₀.map) (hcalls : ∀ call ∈ calls, call.Valid O)
    (hrun : (O.session calls).exec w₀ s₀ = (r, w, s)) :
    (∃ replies, r = .ok replies ∧ (∀ call ∈ calls, ¬ call.Endless) ∧ Contents.RepliesAll (fun _ => none) calls replies ∧
      T.Consistent s.map) ∨
    ∃ e, r = .error e ∧ (T.Fault e ∨ storage.fault e ∨ LawfulOram.IsOverflow e ∧ O.stash.capacity < 2 ^ O.height * O.Z ∨
      e = .diverges ∧ ∃ call ∈ calls, call.Endless) := by
  let L : LawfulOram O := { sized with storage := storage, map := T.lawful }
  have hconstruct := (LawfulOram.construct_triple L).conseq (fun _ hs => hs) (fun _ _ hs => hs) fun e _ he =>
    (Or.inl he : L.Stops calls e)
  have hsession : Triple L.Fresh (O.session calls) (fun replies s => Contents.RepliesAll (fun _ => none) calls replies ∧
      L.HoldsOnce (Contents.after (fun _ => none) (calls.flatMap Call.ops)) s) (fun e _ => L.Stops calls e) :=
    hconstruct.bind fun _ => LawfulOram.run_triple small hcalls
  have hstart : L.Fresh s₀ := ⟨hfresh.stash, hfresh.cache, T.rep_of_initialised hmap⟩
  rcases r with e | replies
  · refine Or.inr ⟨e, rfl, ?_⟩
    rcases hsession.error hstart hrun with (he | he | he) | he
    · exact Or.inl ((T.err_iff e).1 he)
    · exact Or.inr (Or.inl he)
    · exact Or.inr (Or.inr (Or.inl he))
    · exact Or.inr (Or.inr (Or.inr he))
  · obtain ⟨hreplies, v, -, -, -, hsees⟩ := hsession.ok hstart hrun
    obtain ⟨p, hp, -⟩ := hsees.map
    exact Or.inl ⟨replies, rfl, (LawfulOram.session_ends calls).ok trivial hrun, hreplies, T.consistent_of_rep hp⟩

/-- **Recursive maps are transparent.** An ORAM over a map of any depth is constructed, over its constructed map, and then
called with batches of fewer than 2^32 requests. It replies like a map from IDs to payloads, and on every level each `get` of
the position map has returned the leaf last set, or a stash of some level overflowed or the storage of some level threw; a
leaf is never decoded from fewer than 8 bytes. With a longer batch the session never returns. -/
theorem recursive_answers (own : ¬ storage.fault .readPastEnd) (hfresh : Fresh s₀) (hmap : T.Initialised s₀.map)
    (hcalls : ∀ call ∈ calls, call.Valid O) (hrun : (O.session calls).exec w₀ s₀ = (r, w, s)) :
    ((∀ call ∈ calls, call.batch.length < 2 ^ 32) →
      (∃ replies, r = .ok replies ∧ Contents.RepliesAll (fun _ => none) calls replies ∧ T.Consistent s.map) ∨
        ∃ e, r = .error e ∧ (LawfulOram.IsOverflow e ∨ storage.fault e ∨ T.Fault e)) ∧
    r ≠ .error .readPastEnd ∧
    ((∃ call ∈ calls, 2 ^ 32 ≤ call.batch.length) → ∀ replies, r ≠ .ok replies) := by
  rcases recursive_outcome sized small storage T hfresh hmap hcalls hrun with
    ⟨replies, rfl, hshort, hreplies, hconsistent⟩ | ⟨e, rfl, he⟩
  · refine ⟨fun _ => Or.inl ⟨replies, rfl, hreplies, hconsistent⟩, by simp, ?_⟩
    rintro ⟨call, hm, hlong⟩
    exact absurd hlong (hshort call hm)
  · refine ⟨fun hshort => Or.inr ⟨e, rfl, ?_⟩, ?_, fun _ _ h => nomatch h⟩
    · rcases he with he | he | he | ⟨-, call, hm, hlong⟩
      · exact Or.inr (Or.inr he)
      · exact Or.inr (Or.inl he)
      · exact Or.inl he.1
      · exact absurd (hshort call hm) (not_lt.2 hlong)
    · intro h
      cases h
      rcases he with he | he | ⟨⟨capacity, he⟩, -⟩ | ⟨he, -⟩
      · exact T.not_readPastEnd he
      · exact own he
      · cases he
      · cases he

end

/-! ## Two tiny ORAMs -/

/-- an ORAM over a storage, with its map in another ORAM -/
def recursiveOram {β β' μ' : Type} (S : StorageAdapter β) (inner : Oram β' μ') (stashCapacity height batchSize : ℕ) :
    Oram β (OramMapState β' μ') where
  storage := S
  map := oramPositionMap inner
  stash := ⟨stashCapacity⟩
  dataSize := S.userBlockSize
  Z := S.Z
  height := height
  batchSize := batchSize

/-- the tiny ORAM over a map in a second tiny ORAM -/
def tinyRecursive : Oram (BlockArray 2 64) (OramMapState (BlockArray 2 64) (PositionArray 2)) :=
  recursiveOram { tinyStorage with crypto := plainCrypto, backend := inMemoryBackend 2 64 }
    (inMemoryOram tinyStorage plainCrypto 2 6 1 4) 6 1 4

/-- the same for batches of any length -/
def wideRecursive : Oram (BlockArray 2 64) (OramMapState (BlockArray 2 64) (PositionArray 2)) :=
  { tinyRecursive with batchSize := 2 ^ 64 - 1 }

theorem tiny_small : 2 ^ 1 * 1 ≤ 2 ^ 31 := by decide

/-- the recursive map of the tiny ORAM -/
def tinyMap : Recursive tinyRecursive.map (2 ^ tinyRecursive.height * tinyRecursive.Z) :=
  .oram (arrayOram_lawful tiny_sizes (inMemoryBackend_lawful 2 64) 6 4).toSized tiny_small (inMemoryBackend_lawful 2 64) id
    (.array (by decide)) (by decide)

/-- a put and a get, after the construction of both levels -/
theorem tinyRecursive_session : ∃ s₀, Fresh s₀ ∧ tinyMap.Initialised s₀.map ∧ ∃ w s,
    (tinyRecursive.session [.put 0 [1], .get 0]).exec zeroWorld s₀ =
      (.ok [.done, .got (1 :: List.replicate 31 0)], w, s) := by
  set built := (inMemoryOram tinyStorage plainCrypto 2 6 1 4).construct.exec zeroWorld (zeroState tinyStorage 2) with hbuilt
  have hconstruct : built.1 = .ok () := by
    rw [hbuilt]
    decide +kernel
  have hsession : ((tinyRecursive.session [.put 0 [1], .get 0]).exec zeroWorld
      ⟨(zeroState tinyStorage 2).storage, ⟨built.2.2, []⟩, ∅, ∅⟩).1 = .ok [.done, .got (1 :: List.replicate 31 0)] := by
    rw [hbuilt]
    decide +kernel
  clear_value built
  exact ⟨_, ⟨rfl, rfl⟩, ⟨rfl, zeroState tinyStorage 2, zeroWorld, built.2.1, zeroState_fresh tinyStorage 2, trivial,
    hbuilt.symm.trans (Prod.ext hconstruct rfl)⟩, _, _, Prog.exec_eq hsession⟩

theorem tinyRecursive_sized : tinyRecursive.Sized :=
  { (arrayOram_lawful tiny_sizes (inMemoryBackend_lawful 2 64) 6 4).toSized with }

theorem recursive_answers_tiny : ∃ s₀ w s,
    (tinyRecursive.session [.put 0 [1], .get 0]).exec zeroWorld s₀ = (.ok [.done, .got (1 :: List.replicate 31 0)], w, s) ∧
      Contents.RepliesAll (fun _ => none) [.put 0 [1], .get 0] [.done, .got (1 :: List.replicate 31 0)] ∧
      tinyMap.Consistent s.map := by
  obtain ⟨s₀, hfresh, hmap, w, s, hsession⟩ := tinyRecursive_session
  have hanswers := (recursive_answers tinyRecursive_sized tiny_small (inMemoryBackend_lawful 2 64) tinyMap id hfresh hmap
    (by decide) hsession).1 (by decide)
  rcases hanswers with ⟨replies, hok, hreplies⟩ | ⟨e, he, -⟩
  · cases hok
    exact ⟨s₀, w, s, hsession, hreplies⟩
  · exact nomatch he

/-- nothing is thrown by the map of the tiny ORAM: the stash of the inner one has room for all its blocks -/
theorem tinyMap_faultless (e : Exception) : ¬ tinyMap.Fault e := by
  rintro (h | h | ⟨-, hfew⟩)
  · exact h
  · exact h
  · exact absurd hfew (by decide)

/-- **A batch without an end**, over a map in another ORAM. The stashes of both levels have room for all their blocks. -/
theorem recursive_batch_without_end : ∃ s₀, Fresh s₀ ∧ tinyMap.Initialised s₀.map ∧
    (∀ call ∈ [Call.multiple endlessReads], call.Valid wideRecursive) ∧
    ∀ w₀, ((wideRecursive.session [.multiple endlessReads]).exec w₀ s₀).1 = .error .diverges := by
  obtain ⟨s₀, hfresh, hmap, -⟩ := tinyRecursive_session
  have hvalid : ∀ call ∈ [Call.multiple endlessReads], call.Valid wideRecursive :=
    endlessReads_valid (Nat.mul_pos (Nat.two_pow_pos 1) Nat.one_pos) (by decide)
  refine ⟨s₀, hfresh, hmap, hvalid, fun w₀ => ?_⟩
  have hsized : wideRecursive.Sized := { tinyRecursive_sized with }
  rcases hrun : (wideRecursive.session [.multiple endlessReads]).exec w₀ s₀ with ⟨r, w, s⟩
  rcases recursive_outcome hsized tiny_small (inMemoryBackend_lawful 2 64) tinyMap hfresh hmap hvalid hrun with
    ⟨replies, -, hshort, -⟩ | ⟨e, rfl, he⟩
  · exact absurd length_endlessReads.ge (hshort _ List.mem_cons_self)
  · rcases he with he | he | ⟨-, hfew⟩ | ⟨rfl, -⟩
    · exact absurd he (tinyMap_faultless e)
    · exact he.elim
    · exact absurd hfew (by decide)
    · rfl

end PathOram
