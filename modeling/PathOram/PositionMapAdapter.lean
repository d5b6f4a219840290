/-
Position maps (`position-map-adapter.hpp`): the interface, and the in-memory array. The adapter that keeps the map in
another ORAM is in `OramPositionMap`.
-/
import PathOram.Definitions

namespace PathOram

open Lib

/-- the virtual methods of `AbsPositionMapAdapter`, for a map with state μ -/
structure PositionMapAdapter (μ : Type) where
  get : ℕ → Run μ ℕ
  set : ℕ → ℕ → Run μ Unit

/-- a call of a position map that returned -/
inductive MapCall where
  | get (block leaf : ℕ)
  | set (block leaf : ℕ)
deriving DecidableEq, Repr

/-- the array of `InMemoryPositionMapAdapter` -/
abbrev PositionArray (capacity : ℕ) := Vector ℕ capacity

def checkCapacity {σ : Type} (capacity block : ℕ) : Run σ Unit :=
  if capacity ≤ block then throw (.blockOutOfBound block capacity) else pure ()

/-- `InMemoryPositionMapAdapter` -/
def inMemoryPositionMap (capacity : ℕ) : PositionMapAdapter (PositionArray capacity) where
  get block := do
    checkCapacity capacity block
    return (← Prog.read)[block]?.getD 0
  set block leaf := do
    checkCapacity capacity block
    Prog.modify fun map => map.setIfInBounds block leaf

end PathOram
