/-
The in-memory stash (`stash-adapter.cpp`): an unordered map from block IDs to payloads with a capacity that `add` and
`update` check before they insert. `add` does not override, `update` does.
-/
import PathOram.Utility

namespace PathOram

open Lib

/-- the field `stash` -/
abbrev Stash := UnorderedMap ℕ Bytes

structure InMemoryStashAdapter where
  capacity : ℕ

namespace InMemoryStashAdapter

variable (A : InMemoryStashAdapter)

/-- the blocks of the stash, shuffled -/
def getAll : Run Stash (List Block) := do
  let stash ← Prog.read
  let response ← iterate stash.toList
  shuffle response

def checkOverflow (block : ℕ) : Run Stash Unit := do
  let stash ← Prog.read
  if stash.size = A.capacity ∧ block ∉ stash then throw (.overCapacity A.capacity) else pure ()

/-- will not override a block with the same ID -/
def add (block : ℕ) (data : Bytes) : Run Stash Unit := do
  A.checkOverflow block
  Prog.modify fun stash => stash.emplace block data

/-- will override a block with the same ID -/
def update (block : ℕ) (data : Bytes) : Run Stash Unit := do
  A.checkOverflow block
  Prog.modify fun stash => stash.insert block data

/-- the payload is put in front of the response vector -/
def get (block : ℕ) (response : Bytes) : Run Stash Bytes := do
  let stash ← Prog.read
  match stash.lookup block with
  | some data => return data ++ response
  | none => return response

def remove (block : ℕ) : Run Stash Unit := Prog.modify fun stash => stash.erase block

end InMemoryStashAdapter

end PathOram
