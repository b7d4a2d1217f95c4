import VirtualPeople.Error
import VirtualPeople.Hash.Jump

/-!
# Pools of virtual people

A pool is a range of ids. The pools of a leaf are laid end to end in their order, which numbers
their people from 0; a seed is hashed to one of the numbers, and the number is led back to an id of
the pool that it lies in. Pools without people are left out.
-/

namespace VirtualPeople

/-- The ids from `offset` on, `population` of them. -/
structure Pool where
  offset : UInt64
  population : UInt64
deriving DecidableEq, Repr

/-- A pool that is not empty, and how many people stand before it. -/
structure Segment where
  start : Nat
  offset : Nat
deriving DecidableEq, Repr

/-- Pools laid end to end. -/
structure IdSpace where
  total : Nat
  first : Segment
  rest : List Segment
deriving DecidableEq, Repr

namespace IdSpace

/-- The largest id. -/
def maxId : Nat := 1 <<< 63 - 1

def maxPopulation : Nat := 1 <<< 31 - 1

/-- The segments of the pools from `start` on, and the number of people after the last. -/
def layOut (start : Nat) : List Pool → Except Error (List Segment × Nat)
  | [] => .ok ([], start)
  | ⟨offset, population⟩ :: rest =>
    if population = 0 then layOut start rest
    else if maxId < offset.toNat then invalidModel (.offsetRange offset)
    else if maxId < offset.toNat + (population.toNat - 1) then
      invalidModel (.lastId offset population)
    else if maxId < start + population.toNat then invalidModel .populationOverflow
    else do
      let (segments, total) ← layOut (start + population.toNat) rest
      return (⟨start, offset.toNat⟩ :: segments, total)

def ofPools (pools : List Pool) : Except Error IdSpace := do
  match ← layOut 0 pools with
  | ([], _) => invalidModel .noPopulation
  | (first :: rest, total) =>
    if maxPopulation < total then invalidModel (.populationRange total)
    else return ⟨total, first, rest⟩

/-- The last segment that starts at or before a number, given that `current` does. -/
def locate (number : Int) (current : Segment) : List Segment → Segment
  | [] => current
  | next :: rest => if next.start ≤ number then locate number next rest else current

/-- The id that a seed is led to. -/
def personId (s : IdSpace) (seed : UInt64) : Int :=
  let number := jumpHash seed s.total
  let segment := locate number s.first s.rest
  number - segment.start + segment.offset

end IdSpace

end VirtualPeople
