import VirtualPeople.Event
import VirtualPeople.Hash.Fingerprint

/-!
# Multiplicity

How many people one event stands for. The expected number is rounded to one of its two neighbours,
up for as large a share of the seeds as its fraction says. The copies of an event differ in their
fingerprints, of which the first copy keeps the one of the event, and in a field that counts them.
-/

namespace VirtualPeople

/-- The written form of a multiplicity; just one of `expected` and `expectedField` may be set. -/
structure MultiplicitySpec where
  expected : Option Float
  expectedField : Option String
  max : Option Float
  capAtMax : Option Bool
  personIndexField : Option String
  seed : Option String

/-- Where the expected number comes from. -/
inductive Expectation
  | constant (value : Float)
  | field (field : ScalarField Schema.event.fields)

structure Multiplicity where
  expected : Expectation
  capAtMax : Bool
  max : Float
  personIndex : ScalarField Schema.event.fields
  seed : String

namespace MultiplicitySpec

def fieldNames : List String :=
  ["expected_multiplicity", "expected_multiplicity_field", "max_value", "cap_at_max",
    "person_index_field", "random_seed"]

def decoder : Decoder MultiplicitySpec := Decoder.record fieldNames fun n values =>
  match values with
  | [expected, expectedField, max, capAtMax, personIndexField, seed] => do
    return {
      expected := ← Decoder.optional Decoder.double n expected
      expectedField := ← Decoder.optional Decoder.string n expectedField
      max := ← Decoder.optional Decoder.double n max
      capAtMax := ← Decoder.optional Decoder.bool n capAtMax
      personIndexField := ← Decoder.optional Decoder.string n personIndexField
      seed := ← Decoder.optional Decoder.string n seed }
  | _ => none

def toJson (m : MultiplicitySpec) : Json :=
  .object (Json.member "expected_multiplicity" (m.expected.map .ofFloat) ++
    Json.member "expected_multiplicity_field" (m.expectedField.map .string) ++
    Json.member "max_value" (m.max.map .ofFloat) ++
    Json.member "cap_at_max" (m.capAtMax.map .bool) ++
    Json.member "person_index_field" (m.personIndexField.map .string) ++
    Json.member "random_seed" (m.seed.map .string))

/-- A setting that has to be set. -/
def required {α : Type} (name : String) : Option α → Except Error α
  | some v => return v
  | none => invalidModel (.multiplicityUnset name)

def buildExpected : Option Float → Option String → Except Error Expectation
  | some value, none => return .constant value
  | none, some text => do
    let field ← Schema.event.field text
    match field with
    | .scalar f =>
      if f.kind.isNumeric then return .field f else invalidModel (.expectedKind field.kind)
    | .message _ => invalidModel (.expectedKind field.kind)
  | none, none => invalidModel .expectedUnset
  | some _, some _ => invalidModel .expectedTwice

def buildPersonIndex (text : String) : Except Error (ScalarField Schema.event.fields) := do
  let field ← Schema.event.field text
  match field with
  | .scalar f =>
    if f.kind.isInteger then return f else invalidModel (.personIndexKind field.kind)
  | .message _ => invalidModel (.personIndexKind field.kind)

/-- The multiplicity that is written. -/
def build (m : MultiplicitySpec) : Except Error Multiplicity := do
  let personIndexField ← required "person_index_field" m.personIndexField
  let max ← required "max_value" m.max
  let capAtMax ← required "cap_at_max" m.capAtMax
  let seed ← required "random_seed" m.seed
  let expected ← buildExpected m.expected m.expectedField
  return ⟨expected, capAtMax, max, ← buildPersonIndex personIndexField, seed⟩

end MultiplicitySpec

/-- A number that is not negative, by its rank, as its whole part and its fraction in units of
`2 ^ -64`, rounded down. The whole part goes no further than a 64-bit word; what is no number
counts as zero. -/
def wholeAndFraction (rank : Nat) : Nat × Nat :=
  if Format.double.infinity < rank then (0, 0)
  else if rank = Format.double.infinity then (1 <<< 64 - 1, 0)
  else
    match Format.double.value rank with
    | (m, .ofNat q) => (min (1 <<< 64 - 1) (m <<< q), 0)
    | (m, .negSucc q) => (m >>> (q + 1), (m % 1 <<< (q + 1)) <<< 64 >>> (q + 1))

/-- A number that is not negative rounded to a neighbour: up if the seed lies below the fraction. -/
def roundBySeed (x : Float) (seed : UInt64) : Nat :=
  let (whole, fraction) := wholeAndFraction (rankOf x)
  if seed.toNat < fraction then whole + 1 else whole

namespace Multiplicity

/-- The expected number of an event. -/
def expectedOf (m : Multiplicity) (e : Event) : Except Error Float :=
  match m.expected with
  | .constant value => return value
  | .field field =>
    match (field.get? e).bind Value.toDouble? with
    | some value => return value
    | none => invalidEvent .multiplicityUnset

/-- The expected number within the bounds. -/
def bounded (m : Multiplicity) (expected : Float) : Except Error Float :=
  let least (x : Float) : Except Error Float :=
    if x < 0.0 then invalidEvent (.multiplicityNegative x) else return x
  if m.max < expected then
    if m.capAtMax then least m.max else invalidEvent (.multiplicityAboveMax expected m.max)
  else least expected

/-- How many copies an event is expanded into. -/
def count (m : Multiplicity) (e : Event) : Except Error Nat := do
  let expected ← m.bounded (← m.expectedOf e)
  return roundBySeed expected (fingerprint (m.seed ++ (Value.uint64 e.fingerprint).text))

/-- The text that the fingerprint of a copy other than the first is made from. -/
def cloneKey (seed : String) (index : Nat) (actingFingerprint : UInt64) : String :=
  seed ++ "-clone-" ++ String.ofList (Decimal.digitChars index) ++ "-" ++
    (Value.uint64 actingFingerprint).text

/-- The fingerprint of a copy of an event. -/
def cloneFingerprint (m : Multiplicity) (actingFingerprint : UInt64) (index : Nat) : UInt64 :=
  if index = 0 then actingFingerprint
  else fingerprint (cloneKey m.seed index actingFingerprint)

/-- Writes the number of a copy to the field that counts them; it has to fit the field and a signed
64-bit word. -/
def setPersonIndex (m : Multiplicity) (index : Nat) (e : Event) : Except Error Event :=
  match if index < 1 <<< 63 then m.personIndex.kind.ofInt? index else none with
  | some v => return m.personIndex.put v e
  | none => invalidEvent (.personIndexRange index m.personIndex.text)

end Multiplicity

end VirtualPeople
