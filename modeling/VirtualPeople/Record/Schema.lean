import VirtualPeople.Record.Scalar

/-!
# Records and their schemas

A schema lists the fields of a message type in order: scalars, messages and lists. The records of
a schema are tuples with a slot for each field. A slot of a scalar or a message may be unset; a
list may be empty. What a field holds is thus fixed by its type, and a message that is set but
empty differs from one that is unset. Merging a record into another takes over its scalars that are
set, merges its messages and appends its lists.
-/

namespace VirtualPeople

mutual

/-- What a field holds. -/
inductive FieldType
  | scalar (kind : ScalarKind)
  | message (name : String) (fields : Fields)
  | list (item : FieldType)

/-- The fields of a message, in order. -/
inductive Fields
  | nil
  | cons (name : String) (type : FieldType) (rest : Fields)

end

/-- A message type. -/
structure MessageType where
  name : String
  fields : Fields

mutual

/-- One value of a type. -/
@[reducible] def FieldType.Item : FieldType → Type
  | .scalar k => k.Carrier
  | .message _ fs => fs.Record
  | .list t => List t.Item

/-- What a field of a type holds: perhaps a value, or the items of a list. -/
@[reducible] def FieldType.Slot : FieldType → Type
  | .scalar k => Option k.Carrier
  | .message _ fs => Option fs.Record
  | .list t => List t.Item

/-- A slot for every field. -/
@[reducible] def Fields.Record : Fields → Type
  | .nil => Unit
  | .cons _ t rest => t.Slot × rest.Record

end

namespace FieldType

def kind : FieldType → FieldKind
  | .scalar k => .scalar k
  | .message _ _ => .message
  | .list _ => .repeated

/-- A slot that holds nothing. -/
def unset : (t : FieldType) → t.Slot
  | .scalar _ => none
  | .message _ _ => none
  | .list _ => []

end FieldType

namespace Fields

/-- Fields from a list of names and types. -/
def ofList : List (String × FieldType) → Fields
  | [] => .nil
  | (name, type) :: rest => .cons name type (ofList rest)

def toList : Fields → List (String × FieldType)
  | .nil => []
  | .cons name type rest => (name, type) :: rest.toList

def names (fs : Fields) : List String := fs.toList.map (·.1)

/-- The record with nothing set. -/
def empty : (fs : Fields) → fs.Record
  | .nil => ()
  | .cons _ t rest => (t.unset, rest.empty)

end Fields

/-- A field of a schema, by its place. -/
inductive Fields.At : Fields → FieldType → Type
  | here {name : String} {t : FieldType} {rest : Fields} : At (.cons name t rest) t
  | there {name : String} {t u : FieldType} {rest : Fields} : At rest u → At (.cons name t rest) u

namespace Fields.At

def name : {fs : Fields} → {t : FieldType} → fs.At t → String
  | .cons name _ _, _, .here => name
  | _, _, .there a => a.name

def get : {fs : Fields} → {t : FieldType} → fs.At t → fs.Record → t.Slot
  | _, _, .here, (slot, _) => slot
  | _, _, .there a, (_, rest) => a.get rest

def set : {fs : Fields} → {t : FieldType} → fs.At t → t.Slot → fs.Record → fs.Record
  | _, _, .here, slot, (_, rest) => (slot, rest)
  | _, _, .there a, slot, (first, rest) => (first, a.set slot rest)

end Fields.At

/-- The first field of a name. -/
def Fields.find? : (fs : Fields) → String → Option ((t : FieldType) × fs.At t)
  | .nil, _ => none
  | .cons n t rest, name =>
    if n = name then some ⟨t, .here⟩ else (rest.find? name).map fun ⟨u, a⟩ => ⟨u, .there a⟩

/-- A way to a field through messages, none of them in a list. -/
inductive Path : Fields → FieldType → Type
  | field {fs : Fields} {t : FieldType} : fs.At t → Path fs t
  | into {fs gs : Fields} {name : String} {t : FieldType} :
      fs.At (.message name gs) → Path gs t → Path fs t

namespace Path

/-- What stands at the end of a path; nothing if a message on the way is unset. -/
def get : {fs : Fields} → {t : FieldType} → Path fs t → fs.Record → t.Slot
  | _, _, .field a, r => a.get r
  | _, t, .into a p, r =>
    match a.get r with
    | none => t.unset
    | some m => p.get m

/-- Writes a slot, creating the messages on the way. -/
def set : {fs : Fields} → {t : FieldType} → Path fs t → t.Slot → fs.Record → fs.Record
  | _, _, .field a, slot, r => a.set slot r
  | _, _, @into _ gs _ _ a p, slot, r => a.set (some (p.set slot ((a.get r).getD gs.empty))) r

/-- Creates the messages on the way. -/
def enclose : {fs : Fields} → {t : FieldType} → Path fs t → fs.Record → fs.Record
  | _, _, .field _, r => r
  | _, _, @into _ gs _ _ a p, r => a.set (some (p.enclose ((a.get r).getD gs.empty))) r

/-- The path that goes on from a message. -/
def andThen : {fs gs : Fields} → {name : String} → {t : FieldType} →
    Path fs (.message name gs) → Path gs t → Path fs t
  | _, _, _, _, .field a, q => .into a q
  | _, _, _, _, .into a p, q => .into a (p.andThen q)

/-- The name of the field at the end, behind the name of its message type. -/
def target : {fs : Fields} → {t : FieldType} → String → Path fs t → String × String
  | _, _, owner, .field a => (owner, a.name)
  | _, _, _, @into _ _ name _ _ p => p.target name

/-- The path to the field that the names lead to, unless a message in a list is on the way. -/
def find? : (fs : Fields) → List String → Option ((t : FieldType) × Path fs t)
  | _, [] => none
  | fs, [name] => (fs.find? name).map fun ⟨t, a⟩ => ⟨t, .field a⟩
  | fs, name :: rest =>
    match fs.find? name with
    | some ⟨.message _ gs, a⟩ => (find? gs rest).map fun ⟨t, p⟩ => ⟨t, .into a p⟩
    | _ => none

end Path

mutual

/-- The second slot merged into the first. -/
def FieldType.merge : (t : FieldType) → t.Slot → t.Slot → t.Slot
  | .scalar _, a, b =>
    match b with
    | some v => some v
    | none => a
  | .message _ fs, a, b =>
    match a, b with
    | a, none => a
    | none, some y => some y
    | some x, some y => some (fs.merge x y)
  | .list _, a, b => List.append a b

/-- The second record merged into the first. -/
def Fields.merge : (fs : Fields) → fs.Record → fs.Record → fs.Record
  | .nil, _, _ => ()
  | .cons _ t rest, (x, r), (y, s) => (t.merge x y, rest.merge r s)

end

end VirtualPeople
