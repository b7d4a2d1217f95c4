import VirtualPeople.Error
import VirtualPeople.Hash.Fingerprint

/-!
# Weighted choice

Every choice of a distribution draws an exponential variate from the seed and its own number, and
divides it by its weight; the choice with the smallest quotient is picked. A choice is thus picked
as often as its weight says, and a seed changes its choice only where a weight changes.
-/

namespace VirtualPeople

/-- A choice by its number. -/
structure Choice where
  id : Nat
  weight : Float

/-- Choices, at least one, whose weights sum to one but for rounding. -/
structure Distribution where
  first : Choice
  rest : List Choice

namespace Distribution

def toList (d : Distribution) : List Choice := d.first :: d.rest

/-- How far a sum of weights may be from one. -/
def tolerance : Float := 1e-7

def isNearOne (sum : Float) : Bool := 1.0 - tolerance ≤ sum && sum ≤ 1.0 + tolerance

def total (choices : List Choice) : Float := choices.foldl (fun sum c => sum + c.weight) 0.0

/-- The distribution of choices, with each weight divided by the sum of all. -/
def ofChoices (choices : List Choice) : Except Error Distribution :=
  match choices with
  | [] => invalidModel .noChoice
  | first :: rest =>
    match choices.find? fun c => c.weight < 0.0 with
    | some c => invalidModel (.negativeWeight c.weight)
    | none =>
      let sum := total choices
      if isNearOne sum then
        let scaled (c : Choice) : Choice := ⟨c.id, c.weight / sum⟩
        .ok ⟨scaled first, rest.map scaled⟩
      else invalidModel (.weightSum sum)

/-- The distribution of weights, numbered from 0. -/
def ofWeights (weights : List Float) : Except Error Distribution :=
  ofChoices (weights.mapIdx fun i w => ⟨i, w⟩)

/-- The text that a choice draws its variate from. -/
def key (seed : String) (id : Nat) : String :=
  "consistent-hashing-" ++ seed ++ "-" ++ String.ofList (Decimal.digitChars id)

section

variable (variate : String → Float) (seed : String)

/-- The variate of a choice divided by its weight. -/
def draw (c : Choice) : Float := variate (key seed c.id) / c.weight

/-- The choice with the smallest draw, the first of several; `best` has been drawn already. -/
def least (best : Choice) (drawn : Float) : List Choice → Choice
  | [] => best
  | c :: rest =>
    let candidate := draw variate seed c
    if candidate < drawn then least c candidate rest else least best drawn rest

/-- The choice that a seed picks. -/
def winner (d : Distribution) : Choice :=
  least variate seed d.first (draw variate seed d.first) d.rest

end

/-- The number of the choice that a seed picks by exponential variates. -/
def pick (d : Distribution) (seed : String) : Nat := (d.winner exponential seed).id

end Distribution

end VirtualPeople
