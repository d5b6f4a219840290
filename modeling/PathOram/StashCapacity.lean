/-
The capacity of the stash over sequences of operations.

`add` and `update` compare the number of blocks with the capacity before they insert, by an equality test; `loadFromFile`
inserts without a test. `Reaches` are the states of a sequence of operations, each of which completes or throws.

- `perform_size`: what one operation does to the number of blocks.
- `refuses`: a full stash refuses a new block.
- `capacity_iff`: **over a sequence of operations** the stash stays within its capacity, and refuses new blocks when it is
  full, if and only if every load fits.
-/
import PathOram.StashFiles

namespace PathOram

open Lib

/-- an operation on the stash -/
inductive StashOp where
  | add (block : ℕ) (data : Bytes)
  | update (block : ℕ) (data : Bytes)
  | get (block : ℕ) (response : Bytes)
  | remove (block : ℕ)
  | load (file : Bytes) (blockSize : ℤ)
deriving DecidableEq, Repr

/-- the IDs of the records that are loaded from a file -/
def loadedIds (file : Bytes) (blockSize : ℤ) : List ℕ :=
  if blockSize < 0 then [] else (recordsOf (file.take (bytesTaken file)) blockSize.toNat).map Prod.fst

namespace InMemoryStashAdapter

variable (A : InMemoryStashAdapter)

def perform : StashOp → Run Stash Unit
  | .add block data => A.add block data
  | .update block data => A.update block data
  | .get block response => do
    let _ ← get block response
    return ()
  | .remove block => remove block
  | .load file blockSize => loadStash file blockSize

/-- the states that a sequence of operations leads to from the empty stash; no operation reads past the end of a buffer -/
inductive Reaches : List StashOp → Stash → Prop
  | start : Reaches [] ∅
  | step {ops : List StashOp} {stash : Stash} (w : World) (op : StashOp) : Reaches ops stash →
    ((A.perform op).exec w stash).1 ≠ .error .readPastEnd → Reaches (ops ++ [op]) ((A.perform op).exec w stash).2.2

/-- a load leaves no more blocks than the capacity: those of the stash and those of the file are not too many -/
def LoadFits (stash : Stash) : StashOp → Prop
  | .load file blockSize => (stash.keySet ∪ (loadedIds file blockSize).toFinset).card ≤ A.capacity
  | _ => True

/-- an operation throws and leaves the stash as it was -/
def Refuses (op : StashOp) (stash : Stash) : Prop :=
  ∀ w, ∃ e w', (A.perform op).exec w stash = (.error e, w', stash)

variable {A}

theorem checkOverflow_exec (block : ℕ) (w : World) (stash : Stash) : (A.checkOverflow block).exec w stash =
    (if stash.size = A.capacity ∧ block ∉ stash then .error (.overCapacity A.capacity) else .ok (), w, stash) := by
  have hread : (A.checkOverflow block).exec w stash = (if stash.size = A.capacity ∧ block ∉ stash then
      throw (.overCapacity A.capacity) else pure () : Run Stash Unit).exec w stash := rfl
  rw [hread]
  split_ifs <;> rfl

/-- an insertion behind the check -/
theorem checked_exec {f : Stash → Stash} (block : ℕ) (w : World) (stash : Stash) :
    (A.checkOverflow block >>= fun _ => Prog.modify f).exec w stash =
      if stash.size = A.capacity ∧ block ∉ stash then (.error (.overCapacity A.capacity), w, stash)
      else (.ok (), w, f stash) := by
  have hcheck := checkOverflow_exec (A := A) block w stash
  split_ifs with h
  · rw [if_pos h] at hcheck
    exact Prog.exec_bind_error hcheck
  · rw [if_neg h] at hcheck
    exact Prog.exec_bind_ok hcheck

/-- **A full stash refuses a new block.** -/
theorem refuses {stash : Stash} (hfull : stash.size = A.capacity) {block : ℕ} (hnew : block ∉ stash) (data : Bytes) :
    A.Refuses (.add block data) stash ∧ A.Refuses (.update block data) stash := by
  constructor
  · refine fun w => ⟨.overCapacity A.capacity, w, ?_⟩
    rw [perform, add, checked_exec, if_pos ⟨hfull, hnew⟩]
  · refine fun w => ⟨.overCapacity A.capacity, w, ?_⟩
    rw [perform, update, checked_exec, if_pos ⟨hfull, hnew⟩]

/-- an insertion behind the check keeps to the capacity -/
theorem checked_size {f : Stash → Stash} {block : ℕ} (hf : ∀ stash, UnorderedMap.keySet (f stash) =
    insert block stash.keySet) {stash : Stash} (hsize : stash.size ≤ A.capacity) (w : World) :
    UnorderedMap.size ((A.checkOverflow block >>= fun _ => Prog.modify f).exec w stash).2.2 ≤ A.capacity := by
  rw [checked_exec]
  split_ifs with h
  · exact hsize
  · rw [← UnorderedMap.card_keySet, hf]
    by_cases hmem : block ∈ stash
    · rw [Finset.insert_eq_self.2 (UnorderedMap.mem_keySet.2 hmem), UnorderedMap.card_keySet]
      exact hsize
    · have hlt : stash.size < A.capacity := lt_of_le_of_ne hsize fun he => h ⟨he, hmem⟩
      have hcard := Finset.card_insert_le block stash.keySet
      rw [UnorderedMap.card_keySet] at hcard
      omega

/-- the blocks after a load -/
theorem loadStash_keys (file : Bytes) (blockSize : ℤ) (w : World) (stash : Stash) :
    UnorderedMap.keySet ((loadStash file blockSize).exec w stash).2.2 =
      stash.keySet ∪ (loadedIds file blockSize).toFinset := by
  unfold loadedIds
  split_ifs with hneg
  · rw [loadStash_negative hneg]
    simp
  · obtain ⟨size, rfl⟩ := Int.eq_ofNat_of_zero_le (not_lt.1 hneg)
    rw [loadStash_exec, UnorderedMap.keySet_emplaceAll, Int.toNat_natCast]

/-- **One operation** keeps to the capacity, a load if and only if it fits. -/
theorem perform_size {stash : Stash} (hsize : stash.size ≤ A.capacity) (op : StashOp) (w : World) :
    UnorderedMap.size ((A.perform op).exec w stash).2.2 ≤ A.capacity ↔ A.LoadFits stash op := by
  cases op with
  | add block data =>
    exact iff_of_true (checked_size (fun stash => UnorderedMap.keySet_emplace stash block data) hsize w) trivial
  | update block data =>
    exact iff_of_true (checked_size (fun stash => UnorderedMap.keySet_insert stash block data) hsize w) trivial
  | get block response =>
    have hsame : ((A.perform (.get block response)).exec w stash).2.2 = stash := by
      have hresult : ∃ result, (get block response).exec w stash = (.ok result, w, stash) := by
        unfold get
        rw [Prog.exec_bind_ok (Prog.exec_read w stash)]
        cases stash.lookup block with
        | some data => exact ⟨_, rfl⟩
        | none => exact ⟨_, rfl⟩
      obtain ⟨result, hresult⟩ := hresult
      rw [perform, Prog.exec_bind_ok hresult]
      rfl
    rw [hsame]
    exact iff_of_true hsize trivial
  | remove block =>
    refine iff_of_true ?_ trivial
    change UnorderedMap.size (stash.erase block) ≤ A.capacity
    rw [← UnorderedMap.card_keySet, UnorderedMap.keySet_erase]
    exact (Finset.card_erase_le).trans (UnorderedMap.card_keySet stash ▸ hsize)
  | load file blockSize =>
    rw [perform, LoadFits, ← UnorderedMap.card_keySet, loadStash_keys]

/-- **The stash never exceeds its capacity, exactly where every load fits.** Over a sequence of operations that starts
with an empty stash, every state reached has at most as many blocks as the capacity, and a new block is refused at the
capacity, if and only if at every load the IDs of the stash and of the records that are read are not too many. -/
theorem capacity_iff (A : InMemoryStashAdapter) (ops : List StashOp) :
    (∀ done stash, done <+: ops → A.Reaches done stash → stash.size ≤ A.capacity ∧
      ∀ block data, block ∉ stash → A.capacity ≤ stash.size →
        A.Refuses (.add block data) stash ∧ A.Refuses (.update block data) stash) ↔
    ∀ done stash op, done ++ [op] <+: ops → A.Reaches done stash →
      (∃ w, ((A.perform op).exec w stash).1 ≠ .error .readPastEnd) → A.LoadFits stash op := by
  constructor
  · intro h done stash op hprefix hreaches ⟨w, hcompletes⟩
    have hbefore := (h done stash ((List.prefix_append _ _).trans hprefix) hreaches).1
    have hafter := (h _ _ hprefix (.step w op hreaches hcompletes)).1
    exact (perform_size hbefore op w).1 hafter
  · intro h
    have hsize : ∀ done stash, done <+: ops → A.Reaches done stash → stash.size ≤ A.capacity := by
      intro done stash hprefix hreaches
      induction hreaches with
      | start => exact Nat.zero_le _
      | @step done stash w op hreaches hcompletes ih =>
        have hbefore := ih ((List.prefix_append _ _).trans hprefix)
        exact (perform_size hbefore op w).2 (h done stash op hprefix hreaches ⟨w, hcompletes⟩)
    refine fun done stash hprefix hreaches => ⟨hsize done stash hprefix hreaches, fun block data hnew hge => ?_⟩
    exact refuses (le_antisymm (hsize done stash hprefix hreaches) hge) hnew data

/-- A file of two records is loaded into a stash with room for one; then a third block is added, and no check notices. -/
theorem capacity_exceeded : ∃ stash stash',
    InMemoryStashAdapter.Reaches ⟨1⟩ [.load ([5] ++ List.replicate 7 0 ++ [6] ++ List.replicate 7 0) 0] stash ∧
      stash.size = 2 ∧ 7 ∉ stash ∧
      ((InMemoryStashAdapter.perform ⟨1⟩ (.add 7 [])).exec zeroWorld stash) = (.ok (), zeroWorld, stash') ∧ stash'.size = 3 := by
  set op : StashOp := .load ([5] ++ List.replicate 7 0 ++ [6] ++ List.replicate 7 0) 0 with hop
  have hcompletes : ((perform ⟨1⟩ op).exec zeroWorld ∅).1 ≠ .error .readPastEnd := by
    rw [hop]
    decide +kernel
  refine ⟨((perform ⟨1⟩ op).exec zeroWorld ∅).2.2, _, .step zeroWorld op .start hcompletes, ?_, ?_, Prog.exec_eq ?_, ?_⟩
  all_goals
    rw [hop]
    decide +kernel

end InMemoryStashAdapter

end PathOram
