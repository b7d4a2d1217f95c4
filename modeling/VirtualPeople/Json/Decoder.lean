import VirtualPeople.Json.Reader

/-!
# Decoding JSON

A decoder takes a value and how many levels of arrays and objects it may still open. A record is
an object, whose unknown members are ignored, or an array of its fields in their order; either way
fields may be missing. A repeated field or an array with more values than fields is refused.
-/

namespace VirtualPeople

/-- How many levels the text of a document may nest. -/
def nestingLimit : Nat := 127

/-- Reads a value with at most the given number of levels of arrays and objects. -/
abbrev Decoder (α : Type) := Nat → Json → Option α

namespace Decoder

variable {α : Type}

def bool : Decoder Bool
  | _, .bool b => some b
  | _, _ => none

def string : Decoder String
  | _, .string s => some s
  | _, _ => none

/-- An integer between two bounds, both allowed. -/
def intIn (lo hi : Int) : Decoder Int
  | _, .int i _ => if lo ≤ i ∧ i ≤ hi then some i else none
  | _, _ => none

def int32 : Decoder Int32 := fun n v => (intIn (-2147483648) 2147483647 n v).map Int32.ofInt

def int64 : Decoder Int64 := fun n v =>
  (intIn (-9223372036854775808) 9223372036854775807 n v).map Int64.ofInt

def uint32 : Decoder UInt32 := fun n v => (intIn 0 4294967295 n v).map (UInt32.ofNat ·.toNat)

def uint64 : Decoder UInt64 := fun n v =>
  (intIn 0 18446744073709551615 n v).map (UInt64.ofNat ·.toNat)

/-- A number; an integer goes to the nearest double. -/
def double : Decoder Float
  | _, .int i _ => some (doubleOfInt i)
  | _, .float x _ => some x
  | _, _ => none

/-- A number, rounded to a single; what is too large for one is infinite. -/
def single : Decoder Float32
  | _, .int i _ => some (singleOfInt i)
  | _, .float x _ => some (narrow x)
  | _, _ => none

/-- Items that are each read by `item`. -/
def all (item : Json → Option α) : List Json → Option (List α)
  | [] => some []
  | v :: rest =>
    match item v, all item rest with
    | some x, some xs => some (x :: xs)
    | _, _ => none

def list (item : Decoder α) : Decoder (List α)
  | n + 1, .array items => all (item n) items
  | _, _ => none

/-- One of the names of a table, alone or as the only member of an object that is null. -/
def oneOf (table : List (String × α)) : Decoder α
  | _, .string name => table.lookup name
  | _ + 1, .object [(name, .null)] => table.lookup name
  | _, _ => none

/-- The values of the fields of a record, each with its name's place. -/
def fieldValues (names : List String) : Json → Option (List (Option Json))
  | .object members =>
    if names.all fun name => members.countP (·.1 == name) ≤ 1 then
      some (names.map fun name => members.lookup name)
    else none
  | .array items =>
    if items.length ≤ names.length then
      some (items.map some ++ List.replicate (names.length - items.length) none)
    else none
  | _ => none

/-- A record: `body` reads the values of its fields. -/
def record (names : List String) (body : Nat → List (Option Json) → Option α) : Decoder α
  | n + 1, v => (fieldValues names v).bind (body n)
  | 0, _ => none

/-- A field that may be missing or null. -/
def optional (decoder : Decoder α) (n : Nat) : Option Json → Option (Option α)
  | none => some none
  | some .null => some none
  | some v => (decoder n v).map some

/-- A field that may be missing, but not null. -/
def orElse (decoder : Decoder α) (default : α) (n : Nat) : Option Json → Option α
  | none => some default
  | some v => decoder n v

end Decoder

/-- Decodes the text of a whole document. -/
def Decoder.readText {α : Type} (decoder : Decoder α) (text : String) : Option α :=
  (Json.read? text).bind (decoder nestingLimit)

/-- Decodes a value however deep it is. -/
def Decoder.readValue {α : Type} (decoder : Decoder α) (v : Json) : Option α :=
  decoder v.depth v

namespace Json

/-- A member, unless its value is unset. -/
def member (name : String) (value : Option Json) : List (String × Json) :=
  match value with
  | some v => [(name, v)]
  | none => []

/-- A member that lists items, left out if there is none. -/
def listMember (name : String) (items : List Json) : List (String × Json) :=
  if items.isEmpty then [] else [(name, .array items)]

end Json

end VirtualPeople
