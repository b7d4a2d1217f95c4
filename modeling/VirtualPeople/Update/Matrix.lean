import VirtualPeople.Update.Columns

/-!
# Update matrices

The column of an event picks one of its rows, which is merged into the event. All columns of a
dense matrix have the same rows, with a probability for each row and column; a column of a sparse
matrix has rows of its own.
-/

namespace VirtualPeople

def eventsJson (events : List Event) : Json := .array (events.map Event.toJson)

def weightsJson (weights : List Float32) : Json := .array (weights.map fun w => .ofFloat (widen w))

/-- The written form of a dense matrix; the probabilities go row by row. -/
structure MatrixSpec where
  columns : List Event
  rows : List Event
  probabilities : List Float32
  seed : Option String
  passThrough : Option Bool
  mask : Option FieldMask

/-- The written form of a column of a sparse matrix. -/
structure SparseColumnSpec where
  attributes : Option Event
  rows : List Event
  probabilities : List Float32

/-- The written form of a sparse matrix. -/
structure SparseMatrixSpec where
  columns : List SparseColumnSpec
  seed : Option String
  passThrough : Option Bool
  mask : Option FieldMask

structure Matrix where
  matcher : ColumnMatcher
  distributions : List Distribution
  seed : String
  rows : List Event
  passThrough : Bool

structure SparseMatrix where
  matcher : ColumnMatcher
  distributions : List Distribution
  seed : String
  rows : List (List Event)
  passThrough : Bool

namespace MatrixSpec

def fieldNames : List String :=
  ["columns", "rows", "probabilities", "random_seed", "pass_through_non_matches",
    "hash_field_mask"]

def decoder : Decoder MatrixSpec := Decoder.record fieldNames fun n values =>
  match values with
  | [columns, rows, probabilities, seed, passThrough, mask] => do
    return {
      columns := ← Decoder.orElse (Decoder.list Event.decoder) [] n columns
      rows := ← Decoder.orElse (Decoder.list Event.decoder) [] n rows
      probabilities := ← Decoder.orElse (Decoder.list Decoder.single) [] n probabilities
      seed := ← Decoder.optional Decoder.string n seed
      passThrough := ← Decoder.optional Decoder.bool n passThrough
      mask := ← Decoder.optional FieldMask.decoder n mask }
  | _ => none

def toJson (m : MatrixSpec) : Json :=
  .object ([("columns", eventsJson m.columns), ("rows", eventsJson m.rows),
      ("probabilities", weightsJson m.probabilities)] ++
    Json.member "random_seed" (m.seed.map .string) ++
    Json.member "pass_through_non_matches" (m.passThrough.map .bool) ++
    Json.member "hash_field_mask" (m.mask.map FieldMask.toJson))

/-- The probabilities of a column. -/
def column (m : MatrixSpec) (c : Nat) : List Float :=
  (List.range m.rows.length).map fun r =>
    widen (m.probabilities.getD (r * m.columns.length + c) 0)

def build (m : MatrixSpec) : Except Error Matrix := do
  if m.rows.isEmpty then invalidModel .matrixWithoutRows
  else if m.columns.isEmpty then invalidModel .matrixWithoutColumns
  else if m.probabilities.length ≠ m.rows.length * m.columns.length then
    invalidModel (.matrixSize m.probabilities.length m.rows.length m.columns.length)
  else
    let matcher ← ColumnMatcher.build m.columns m.mask
    let distributions ←
      (List.range m.columns.length).mapM fun c => Distribution.ofWeights (m.column c)
    return ⟨matcher, distributions, m.seed.getD "", m.rows, m.passThrough.getD false⟩

end MatrixSpec

namespace SparseColumnSpec

def fieldNames : List String := ["column_attrs", "rows", "probabilities"]

def decoder : Decoder SparseColumnSpec := Decoder.record fieldNames fun n values =>
  match values with
  | [attributes, rows, probabilities] => do
    return {
      attributes := ← Decoder.optional Event.decoder n attributes
      rows := ← Decoder.orElse (Decoder.list Event.decoder) [] n rows
      probabilities := ← Decoder.orElse (Decoder.list Decoder.single) [] n probabilities }
  | _ => none

def toJson (c : SparseColumnSpec) : Json :=
  .object (Json.member "column_attrs" (c.attributes.map Event.toJson) ++
    [("rows", eventsJson c.rows), ("probabilities", weightsJson c.probabilities)])

/-- The attributes of the column at a place, which needs rows and a probability for each. -/
def check (place : Nat) (c : SparseColumnSpec) : Except Error Event :=
  match c.attributes with
  | none => invalidModel (.columnWithoutAttributes place)
  | some attributes =>
    if c.rows.isEmpty then invalidModel (.columnWithoutRows place)
    else if c.rows.length ≠ c.probabilities.length then invalidModel (.columnSize place)
    else return attributes

/-- The attributes of the columns from a place on. -/
def checkAll (place : Nat) : List SparseColumnSpec → Except Error (List Event)
  | [] => return []
  | c :: rest => do return (← c.check place) :: (← checkAll (place + 1) rest)

end SparseColumnSpec

namespace SparseMatrixSpec

def fieldNames : List String :=
  ["columns", "random_seed", "pass_through_non_matches", "hash_field_mask"]

def decoder : Decoder SparseMatrixSpec := Decoder.record fieldNames fun n values =>
  match values with
  | [columns, seed, passThrough, mask] => do
    return {
      columns := ← Decoder.orElse (Decoder.list SparseColumnSpec.decoder) [] n columns
      seed := ← Decoder.optional Decoder.string n seed
      passThrough := ← Decoder.optional Decoder.bool n passThrough
      mask := ← Decoder.optional FieldMask.decoder n mask }
  | _ => none

def toJson (m : SparseMatrixSpec) : Json :=
  .object (("columns", .array (m.columns.map SparseColumnSpec.toJson)) ::
    (Json.member "random_seed" (m.seed.map .string) ++
      Json.member "pass_through_non_matches" (m.passThrough.map .bool) ++
      Json.member "hash_field_mask" (m.mask.map FieldMask.toJson)))

def build (m : SparseMatrixSpec) : Except Error SparseMatrix := do
  if m.columns.isEmpty then invalidModel .sparseWithoutColumns
  else
    let attributes ← SparseColumnSpec.checkAll 0 m.columns
    let matcher ← ColumnMatcher.build attributes m.mask
    let distributions ←
      m.columns.mapM fun c => Distribution.ofWeights (c.probabilities.map widen)
    return ⟨matcher, distributions, m.seed.getD "", m.columns.map (·.rows),
      m.passThrough.getD false⟩

end SparseMatrixSpec

/-- Merges the picked row into an event. -/
def Matrix.update (m : Matrix) : Labeling :=
  m.matcher.mergeRow m.distributions m.seed m.passThrough fun _ row => m.rows[row]?

/-- Merges the picked row of the event's column into an event. -/
def SparseMatrix.update (m : SparseMatrix) : Labeling :=
  m.matcher.mergeRow m.distributions m.seed m.passThrough fun column row =>
    (m.rows[column]?).bind fun rows => rows[row]?

end VirtualPeople
