import VirtualPeople.Distribution
import VirtualPeople.Event
import VirtualPeople.Filter.Condition

/-!
# Columns of a matrix

An event belongs to the first column whose set scalars it has, or, with a mask, to the column that
agrees with it on the masked fields, an unset field agreeing only with an unset one and messages
being compared whole: events that agree have the same masked text, and a table finds the column by
the fingerprint of that text. Each column has a distribution over its rows.
-/

namespace VirtualPeople

/-- The written form of a mask. -/
structure FieldMask where
  paths : List String

namespace FieldMask

def decoder : Decoder FieldMask := Decoder.record ["paths"] fun n values =>
  match values with
  | [paths] => do return ⟨← Decoder.orElse (Decoder.list Decoder.string) [] n paths⟩
  | _ => none

def toJson (m : FieldMask) : Json := .object [("paths", .array (m.paths.map .string))]

end FieldMask

/-- The JSON of a field, null if it is unset. -/
def Field.json {fs : Fields} (field : Field fs) (r : fs.Record) : Json :=
  match field with
  | .scalar f => ((f.get? r).map Value.toJson).getD .null
  | .message f => (Option.map f.fields.toJson (f.path.get r)).getD .null

/-- Columns by the fingerprints of their masked texts. -/
structure MaskTable where
  fields : List (Field Schema.event.fields)
  columns : List (UInt64 × Nat)

namespace MaskTable

variable (fields : List (Field Schema.event.fields))

/-- What the masked fields of an event hold, by their paths. -/
def masked (e : Event) : Json := .object (fields.map fun f => (f.text, f.json e))

def maskedFingerprint (e : Event) : UInt64 := fingerprint (masked fields e).canonicalText

/-- The first of the fields of each path. -/
def distinct : List (Field Schema.event.fields) → List (Field Schema.event.fields)
  | [] => []
  | f :: rest => f :: (distinct rest).filter (·.text ≠ f.text)

/-- The fingerprints of columns, which have to differ, after those seen. -/
def fill (seen : List (UInt64 × Nat)) : List Event → Except Error (List (UInt64 × Nat))
  | [] => return seen.reverse
  | e :: rest =>
    let hash := maskedFingerprint fields e
    match seen.lookup hash with
    | some _ => invalidModel .maskCollision
    | none => fill ((hash, seen.length) :: seen) rest

def build (columns : List Event) (mask : FieldMask) : Except Error MaskTable := do
  if columns.isEmpty then invalidModel .maskWithoutEvents
  else if mask.paths.isEmpty then invalidModel .maskEmpty
  else
    let fields := distinct (← mask.paths.mapM Schema.event.field)
    return ⟨fields, ← fill fields [] columns⟩

/-- The column that agrees with an event. -/
def find? (t : MaskTable) (e : Event) : Option Nat :=
  t.columns.lookup (maskedFingerprint t.fields e)

end MaskTable

/-- Finds the column of an event. -/
inductive ColumnMatcher
  | table (table : MaskTable)
  | filters (filters : List (Filter Schema.event.fields))

namespace ColumnMatcher

def build (columns : List Event) : Option FieldMask → Except Error ColumnMatcher
  | some mask => return .table (← MaskTable.build columns mask)
  | none => return .filters (← columns.mapM Filter.ofRecord)

def find? : ColumnMatcher → Event → Option Nat
  | table t, e => t.find? e
  | filters fs, e => firstMatch fs e

/-- The column of an event and the row that its fingerprint picks there. -/
def select (matcher : ColumnMatcher) (rows : List Distribution) (seed : String) (e : Event) :
    Except Error (Option (Nat × Nat)) :=
  match matcher.find? e with
  | none => return none
  | some column =>
    match rows[column]? with
    | none => .error (.internal .choiceRange)
    | some row => return some (column, row.pick (seed ++ (Value.uint64 e.fingerprint).text))

/-- Merges into an event what stands in its column and row; an event without a column is
unmatched. -/
def mergeRow (matcher : ColumnMatcher) (rows : List Distribution) (seed : String)
    (passThrough : Bool) (change? : Nat → Nat → Option Event) : Labeling := fun e =>
  match matcher.select rows seed e with
  | .error err => .error err e
  | .ok none => Labeling.unmatched passThrough .noColumnMatches e
  | .ok (some (column, row)) =>
    match change? column row with
    | some change => .ok () (e.merge change)
    | none => .error (.internal .rowRange) e

end ColumnMatcher

end VirtualPeople
