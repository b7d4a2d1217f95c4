import VirtualPeople.Filter.Basic

/-!
# Filters as they are written

The written form of a filter names its operation, its field and its literal; which of them are
needed depends on the operation. Building it resolves the field and reads the literal as a value
of the field's kind. The filters within a message name its fields without the message.
-/

namespace VirtualPeople

inductive FilterOp
  | invalid
  | always
  | has
  | equal
  | greater
  | less
  | oneOf
  | all
  | any
  | not
  | within
deriving DecidableEq, Repr

namespace FilterOp

def name : FilterOp → String
  | invalid => "INVALID"
  | always => "TRUE"
  | has => "HAS"
  | equal => "EQUAL"
  | greater => "GT"
  | less => "LT"
  | oneOf => "IN"
  | all => "AND"
  | any => "OR"
  | not => "NOT"
  | within => "PARTIAL"

def table : List (String × FilterOp) :=
  [invalid, always, has, equal, greater, less, oneOf, all, any, not, within].map fun op =>
    (op.name, op)

end FilterOp

/-- The written form of a filter. -/
structure FilterSpec where
  op : FilterOp
  name : Option String
  value : Option String
  subFilters : List FilterSpec

namespace FilterSpec

def fieldNames : List String := ["op", "name", "value", "sub_filters"]

/-- Reads a filter with filters at most `depth` deep in each other. -/
def decoderTo : (depth : Nat) → Decoder FilterSpec
  | 0 => fun _ _ => none
  | depth + 1 => Decoder.record fieldNames fun n values =>
    match values with
    | [op, name, value, subFilters] => do
      return {
        op := ← Decoder.orElse (Decoder.oneOf FilterOp.table) .invalid n op
        name := ← Decoder.optional Decoder.string n name
        value := ← Decoder.optional Decoder.string n value
        subFilters := ← Decoder.orElse (Decoder.list (decoderTo depth)) [] n subFilters }
    | _ => none

/-- Reads a filter; it cannot be deeper than the levels that are left. -/
def decoder : Decoder FilterSpec := fun n => decoderTo n n

mutual

def toJson : FilterSpec → Json
  | ⟨op, name, value, subFilters⟩ =>
    .object (("op", .string op.name) ::
      (Json.member "name" (name.map .string) ++ Json.member "value" (value.map .string) ++
        Json.listMember "sub_filters" (listJson subFilters)))

def listJson : List FilterSpec → List Json
  | [] => []
  | spec :: rest => spec.toJson :: listJson rest

end

def fault {α : Type} (f : FilterFault) : Except Error α := invalidModel (.filter f)

/-- The field of a filter. -/
def field (m : MessageType) : Option String → Except Error (Field m.fields)
  | none => fault .nameUnset
  | some name => m.field name

/-- The field of a filter on scalars. -/
def scalarField (m : MessageType) (name : Option String) : Except Error (ScalarField m.fields) := do
  match ← field m name with
  | .scalar f => return f
  | .message _ => fault .notScalar

/-- The field of a filter on numbers. -/
def numericField (m : MessageType) (name : Option String) :
    Except Error (ScalarField m.fields) := do
  let f ← scalarField m name
  if f.kind.isNumeric then return f else fault .notNumeric

/-- The field of a filter on the fields of a message. -/
def messageField (m : MessageType) (name : Option String) :
    Except Error (MessageField m.fields) := do
  match ← field m name with
  | .message f => return f
  | .scalar _ => fault .notMessage

def literalText : Option String → Except Error String
  | none => fault .valueUnset
  | some text => return text

def literal (k : ScalarKind) (text : String) : Except Error k.Carrier :=
  match k.parse? text with
  | some v => return v
  | none => fault (.badLiteral text (.scalar k))

mutual

/-- The filter on the records of a message type that is written. -/
def build : (m : MessageType) → FilterSpec → Except Error (Filter m.fields)
  | m, ⟨op, name, value, subFilters⟩ =>
    match op with
    | .invalid => fault .opUnset
    | .always => return .always
    | .has => do return .has (← field m name)
    | .equal => do
      let f ← scalarField m name
      return .equal f (← literal f.kind (← literalText value))
    | .greater => do
      let f ← numericField m name
      return .greater f (← literal f.kind (← literalText value))
    | .less => do
      let f ← numericField m name
      return .less f (← literal f.kind (← literalText value))
    | .oneOf => do
      let f ← scalarField m name
      return .oneOf f (← (Text.split ',' (← literalText value)).mapM (literal f.kind))
    | .all => do return .all (← parts m subFilters)
    | .any => do return .any (← parts m subFilters)
    | .not => do
      match ← parts m subFilters with
      | .cons part .nil => return .not part
      | _ => fault .severalSubFilters
    | .within => do
      let f ← messageField m name
      return .within f (← parts ⟨f.name, f.fields⟩ subFilters)

/-- The filters in a filter, of which there must be one. -/
def parts : (m : MessageType) → List FilterSpec → Except Error (Filters m.fields)
  | _, [] => fault .noSubFilter
  | m, spec :: rest => do return .cons (← build m spec) (← buildAll m rest)

def buildAll : (m : MessageType) → List FilterSpec → Except Error (Filters m.fields)
  | _, [] => return .nil
  | m, spec :: rest => do return .cons (← build m spec) (← buildAll m rest)

end

/-- The filters that an event is to be matched against in their order, of which there must be
one. -/
def buildMatcher (m : MessageType) (specs : List FilterSpec) :
    Except Error (List (Filter m.fields)) :=
  if specs.isEmpty then invalidModel .noFilter else specs.mapM (build m)

end FilterSpec

end VirtualPeople
