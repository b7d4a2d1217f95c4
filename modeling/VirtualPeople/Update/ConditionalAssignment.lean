import VirtualPeople.Event
import VirtualPeople.Filter.Spec

/-!
# Conditional assignments

If a condition holds, fields of an event are copied to other fields, one after the other; a field
that is unset is not copied. The two fields of a copy have to be of one kind, which is checked
before anything runs.
-/

namespace VirtualPeople

/-- The written form of an assignment. -/
structure AssignmentSpec where
  source : Option String
  target : Option String

/-- The written form of a conditional assignment. -/
structure ConditionalAssignmentSpec where
  condition : Option FilterSpec
  assignments : List AssignmentSpec

/-- Copies one scalar to another. -/
structure Assignment where
  source : ScalarField Schema.event.fields
  target : ScalarField Schema.event.fields

structure ConditionalAssignment where
  condition : Filter Schema.event.fields
  assignments : List Assignment

/-- Whether scalars of a kind may be assigned: all may but floating-point numbers. -/
def ScalarKind.isAssignable : ScalarKind → Bool
  | float | double => false
  | _ => true

namespace AssignmentSpec

def decoder : Decoder AssignmentSpec :=
  Decoder.record ["source_field", "target_field"] fun n values =>
    match values with
    | [source, target] => do
      return ⟨← Decoder.optional Decoder.string n source,
        ← Decoder.optional Decoder.string n target⟩
    | _ => none

def toJson (a : AssignmentSpec) : Json :=
  .object (Json.member "source_field" (a.source.map .string) ++
    Json.member "target_field" (a.target.map .string))

/-- The assignment between two fields of an event, which have to be of one kind. -/
def pair (source target : Field Schema.event.fields) : Except Error Assignment :=
  match source, target with
  | .scalar s, .scalar t =>
    if t.kind = s.kind then
      if s.kind.isAssignable then return ⟨s, t⟩
      else invalidModel (.assignmentKind (.scalar s.kind))
    else differ
  | .message _, .message _ => invalidModel (.assignmentKind .message)
  | _, _ => differ
where
  differ : Except Error Assignment :=
    invalidModel (.assignmentKinds source.text source.kind target.text target.kind)

def build (a : AssignmentSpec) : Except Error Assignment :=
  match a.source, a.target with
  | none, _ => invalidModel .sourceUnset
  | some _, none => invalidModel .targetUnset
  | some source, some target => do
    pair (← Schema.event.field source) (← Schema.event.field target)

end AssignmentSpec

namespace ConditionalAssignmentSpec

def decoder : Decoder ConditionalAssignmentSpec :=
  Decoder.record ["condition", "assignments"] fun n values =>
    match values with
    | [condition, assignments] => do
      return ⟨← Decoder.optional FilterSpec.decoder n condition,
        ← Decoder.orElse (Decoder.list AssignmentSpec.decoder) [] n assignments⟩
    | _ => none

def toJson (a : ConditionalAssignmentSpec) : Json :=
  .object (Json.member "condition" (a.condition.map FilterSpec.toJson) ++
    [("assignments", .array (a.assignments.map AssignmentSpec.toJson))])

def build (a : ConditionalAssignmentSpec) : Except Error ConditionalAssignment :=
  match a.condition with
  | none => invalidModel .assignmentCondition
  | some condition =>
    if a.assignments.isEmpty then invalidModel .noAssignment
    else do
      let condition ← condition.build Schema.event
      return ⟨condition, ← a.assignments.mapM AssignmentSpec.build⟩

end ConditionalAssignmentSpec

namespace Assignment

/-- Writes the value of the source to the target, if there is one; a value of another kind is
refused. -/
def run (a : Assignment) : Labeling := fun e =>
  match a.source.get? e with
  | none => .ok () e
  | some v => (Field.scalar a.target).write Schema.event.name v e

/-- Runs assignments one after the other, up to the first that fails. -/
def runAll : List Assignment → Labeling
  | [] => fun e => .ok () e
  | a :: rest => fun e =>
    match a.run e with
    | .ok () e => runAll rest e
    | .error err e => .error err e

end Assignment

/-- Runs the assignments in order, if the condition holds. -/
def ConditionalAssignment.update (a : ConditionalAssignment) : Labeling := fun e =>
  if a.condition.holds e then Assignment.runAll a.assignments e else .ok () e

end VirtualPeople
