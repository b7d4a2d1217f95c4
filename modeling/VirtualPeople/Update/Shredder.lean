import VirtualPeople.Event
import VirtualPeople.Hash.Fingerprint

/-!
# Geometric shredders

A shredder replaces an integer of an event by a fingerprint, which depends on how often a random
variate drawn from another integer holds the step `-ln psi`. Where it holds no whole step, the
target is kept; the closer `psi` is to one the more steps there are.
-/

namespace VirtualPeople

/-- The written form of a shredder. -/
structure ShredderSpec where
  psi : Option Float32
  randomness : Option String
  target : Option String
  seed : Option String

structure Shredder where
  psi : Float32
  randomness : ScalarField Schema.event.fields
  target : ScalarField Schema.event.fields
  seed : String

namespace ShredderSpec

def fieldNames : List String := ["psi", "randomness_field", "target_field", "random_seed"]

def decoder : Decoder ShredderSpec := Decoder.record fieldNames fun n values =>
  match values with
  | [psi, randomness, target, seed] => do
    return {
      psi := ← Decoder.optional Decoder.single n psi
      randomness := ← Decoder.optional Decoder.string n randomness
      target := ← Decoder.optional Decoder.string n target
      seed := ← Decoder.optional Decoder.string n seed }
  | _ => none

def toJson (s : ShredderSpec) : Json :=
  .object (Json.member "psi" (s.psi.map fun psi => .ofFloat (widen psi)) ++
    Json.member "randomness_field" (s.randomness.map .string) ++
    Json.member "target_field" (s.target.map .string) ++
    Json.member "random_seed" (s.seed.map .string))

/-- The integer field that plays a role. -/
def wordField (role : String) :
    Option String → Except Error (ScalarField Schema.event.fields)
  | none => invalidModel (.shredFieldUnset role)
  | some text => do
    match ← Schema.event.field text with
    | .scalar f =>
      if f.kind = .uint64 then return f else invalidModel (.shredFieldKind role text)
    | .message _ => invalidModel (.shredFieldKind role text)

def build (s : ShredderSpec) : Except Error Shredder := do
  let psi := s.psi.getD 0
  if 0 ≤ widen psi && widen psi ≤ 1 then
    let randomness ← wordField "randomness_field" s.randomness
    let target ← wordField "target_field" s.target
    return ⟨psi, randomness, target, s.seed.getD ""⟩
  else invalidModel (.psiRange psi)

end ShredderSpec

/-- The step of a `psi` between zero and one by a logarithm, rounded to a single. -/
def shredStepBy (ln : Float → Float) (psi : Float32) : Float := -widen (narrow (ln (widen psi)))

namespace Shredder

/-- How many steps the randomness of an event goes; all of it for a `psi` of one. -/
def stepsBy (ln : Float → Float) (s : Shredder) (e : Event) : Except Error UInt64 :=
  if widen s.psi == 0 then return 0
  else
    match s.randomness.word? e with
    | none => invalidEvent .randomnessUnset
    | some randomness =>
      if widen s.psi == 1 then return randomness
      else
        return (exponentialBy ln (Value.uint64 randomness).text / shredStepBy ln s.psi).toUInt64

/-- The text that the new target is made from. -/
def key (target steps : UInt64) (seed : String) : String :=
  (Value.uint64 target).text ++ "-shred-" ++ (Value.uint64 steps).text ++ "-" ++ seed

/-- Replaces the target, unless there is no step. -/
def updateBy (ln : Float → Float) (s : Shredder) : Labeling := fun e =>
  match s.stepsBy ln e with
  | .error err => .error err e
  | .ok steps =>
    if steps = 0 then .ok () e
    else
      match s.target.word? e with
      | none => .error (.invalidEvent .shredTargetUnset) e
      | some target =>
        (Field.scalar s.target).write Schema.event.name
          (.uint64 (fingerprint (key target steps s.seed))) e

/-- Shreds by the natural logarithm. -/
def update : Shredder → Labeling := updateBy Float.log

end Shredder

end VirtualPeople
