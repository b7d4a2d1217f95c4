import VirtualPeople.Filter.Spec
import VirtualPeople.Update.Columns

/-!
# Conditional merges

The update of the first condition that holds of an event is merged into it.
-/

namespace VirtualPeople

/-- The written form of a condition with its update. -/
structure MergeCaseSpec where
  condition : Option FilterSpec
  update : Option Event

/-- The written form of a conditional merge. -/
structure ConditionalMergeSpec where
  cases : List MergeCaseSpec
  passThrough : Option Bool

structure ConditionalMerge where
  conditions : List (Filter Schema.event.fields)
  updates : List Event
  passThrough : Bool

namespace MergeCaseSpec

def decoder : Decoder MergeCaseSpec := Decoder.record ["condition", "update"] fun n values =>
  match values with
  | [condition, update] => do
    return ⟨← Decoder.optional FilterSpec.decoder n condition,
      ← Decoder.optional Event.decoder n update⟩
  | _ => none

def toJson (c : MergeCaseSpec) : Json :=
  .object (Json.member "condition" (c.condition.map FilterSpec.toJson) ++
    Json.member "update" (c.update.map Event.toJson))

/-- The condition and the update of the case at a place. -/
def build (place : Nat) (c : MergeCaseSpec) :
    Except Error (Filter Schema.event.fields × Event) :=
  match c.condition, c.update with
  | none, _ => invalidModel (.mergeCondition place)
  | some _, none => invalidModel (.mergeUpdate place)
  | some condition, some update => do return (← condition.build Schema.event, update)

/-- The conditions and updates of the cases from a place on. -/
def buildAll (place : Nat) :
    List MergeCaseSpec → Except Error (List (Filter Schema.event.fields × Event))
  | [] => return []
  | c :: rest => do return (← c.build place) :: (← buildAll (place + 1) rest)

end MergeCaseSpec

namespace ConditionalMergeSpec

def decoder : Decoder ConditionalMergeSpec :=
  Decoder.record ["nodes", "pass_through_non_matches"] fun n values =>
    match values with
    | [cases, passThrough] => do
      return ⟨← Decoder.orElse (Decoder.list MergeCaseSpec.decoder) [] n cases,
        ← Decoder.optional Decoder.bool n passThrough⟩
    | _ => none

def toJson (m : ConditionalMergeSpec) : Json :=
  .object (("nodes", .array (m.cases.map MergeCaseSpec.toJson)) ::
    Json.member "pass_through_non_matches" (m.passThrough.map .bool))

def build (m : ConditionalMergeSpec) : Except Error ConditionalMerge := do
  if m.cases.isEmpty then invalidModel .mergeWithoutNodes
  else
    let cases ← MergeCaseSpec.buildAll 0 m.cases
    return ⟨cases.map (·.1), cases.map (·.2), m.passThrough.getD false⟩

end ConditionalMergeSpec

/-- Merges the update of the first condition that holds into an event. -/
def ConditionalMerge.update (m : ConditionalMerge) : Labeling := fun e =>
  match firstMatch m.conditions e with
  | none => Labeling.unmatched m.passThrough .noNodeMatches e
  | some i =>
    match m.updates[i]? with
    | some change => .ok () (e.merge change)
    | none => .error (.internal .choiceRange) e

end VirtualPeople
