import VirtualPeople.Error

/-!
# Fields by name

A field of a message type is named by a dotted path. Resolving the path fixes its kind once, so
that reading never fails and writing fails only for a value of another kind; a failed write still
leaves the messages on the way created.
-/

namespace VirtualPeople

/-- A scalar of a record, by a resolved path. -/
structure ScalarField (fs : Fields) where
  text : String
  kind : ScalarKind
  path : Path fs (.scalar kind)

/-- A message of a record, by a resolved path. -/
structure MessageField (fs : Fields) where
  text : String
  name : String
  fields : Fields
  path : Path fs (.message name fields)

/-- A scalar or a message of a record, by a resolved path. -/
inductive Field (fs : Fields)
  | scalar (field : ScalarField fs)
  | message (field : MessageField fs)

/-- Writes to a record of a schema; a failure keeps the state it reached. -/
abbrev Edit (fs : Fields) := EStateM Error fs.Record

namespace ScalarField

variable {fs : Fields}

def get (field : ScalarField fs) (r : fs.Record) : Option field.kind.Carrier :=
  field.path.get r

def get? (field : ScalarField fs) (r : fs.Record) : Option Value :=
  (field.get r).map (Value.of field.kind)

/-- The unsigned word that a field holds; none for a field of another kind. -/
def word? (field : ScalarField fs) (r : fs.Record) : Option UInt64 :=
  match field.get? r with
  | some (.uint64 v) => some v
  | _ => none

def put (field : ScalarField fs) (v : field.kind.Carrier) (r : fs.Record) : fs.Record :=
  field.path.set (some v) r

end ScalarField

namespace Field

variable {fs : Fields}

def text : Field fs → String
  | scalar field => field.text
  | message field => field.text

def kind : Field fs → FieldKind
  | scalar field => .scalar field.kind
  | message _ => .message

/-- The value of a scalar that is set. -/
def get? : Field fs → fs.Record → Option Value
  | scalar field, r => field.get? r
  | message _, _ => none

def isSet : Field fs → fs.Record → Bool
  | scalar field, r => (field.get r).isSome
  | message field, r => Option.isSome (field.path.get r)

/-- The name of the field, behind the name of the message type that has it. -/
def target (owner : String) : Field fs → String × String
  | scalar field => field.path.target owner
  | message field => field.path.target owner

/-- The failure to write a value to a field of another kind. -/
def wrongKind (value : Value) (target : String × String) : Error :=
  .internal (.wrongKind value.kind value.text target.1 target.2)

/-- Writes a value, creating the messages on the way. -/
def write (owner : String) (field : Field fs) (value : Value) : Edit fs Unit := fun r =>
  match field with
  | scalar f =>
    match value.as? f.kind with
    | some v => .ok () (f.put v r)
    | none => .error (wrongKind value (field.target owner)) (f.path.enclose r)
  | message f => .error (wrongKind value (field.target owner)) (f.path.enclose r)

end Field

namespace MessageType

/-- The scalar or message that a dotted path leads to. -/
def field? (m : MessageType) (text : String) : Option (Field m.fields) :=
  match Path.find? m.fields (Text.split '.' text) with
  | some ⟨.scalar k, p⟩ => some (.scalar ⟨text, k, p⟩)
  | some ⟨.message name gs, p⟩ => some (.message ⟨text, name, gs, p⟩)
  | _ => none

def field (m : MessageType) (text : String) : Except Error (Field m.fields) :=
  match m.field? text with
  | some f => .ok f
  | none => invalidModel (.unknownField text m.name)

/-- The scalar of a record that a name without dots refers to. -/
def scalar? (m : MessageType) (name : String) (r : m.fields.Record) : Option Value :=
  match m.fields.find? name with
  | some ⟨.scalar k, a⟩ => (Option.map (Value.of k) (a.get r))
  | _ => none

/-- Writes the scalar that a name without dots refers to. -/
def writeScalar (m : MessageType) (name : String) (value : Value) : Edit m.fields Unit := fun r =>
  match m.fields.find? name with
  | some ⟨.scalar k, a⟩ =>
    match value.as? k with
    | some v => .ok () (a.set (some v) r)
    | none => .error (Field.wrongKind value (m.name, name)) r
  | _ => .error (Field.wrongKind value (m.name, name)) r

/-- Creates the message that a name without dots refers to, unless it is set. -/
def touch? (m : MessageType) (name : String) (r : m.fields.Record) : Option m.fields.Record :=
  match m.fields.find? name with
  | some ⟨.message _ gs, a⟩ => some (a.set (some (Option.getD (a.get r) gs.empty)) r)
  | _ => none

/-- How many items a list has; none if the name refers to no list. -/
def listLength (m : MessageType) (name : String) (r : m.fields.Record) : Nat :=
  match m.fields.find? name with
  | some ⟨.list _, a⟩ => List.length (a.get r)
  | _ => 0

end MessageType

end VirtualPeople
