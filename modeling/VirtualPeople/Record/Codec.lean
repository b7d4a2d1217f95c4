import VirtualPeople.Record.Schema

/-!
# Records as JSON

A record is an object with a member for each field that is set and each list that has items, in
the order of the schema.
-/

namespace VirtualPeople

mutual

/-- The value of an item. -/
def FieldType.itemJson : (t : FieldType) → t.Item → Json
  | .scalar k, v => k.toJson v
  | .message _ fs, r => .object (fs.members r)
  | .list t, items => .array (List.map t.itemJson items)

/-- The member of a slot, if it holds anything. -/
def FieldType.slotMember (name : String) : (t : FieldType) → t.Slot → List (String × Json)
  | .scalar k, slot => Json.member name (Option.map k.toJson slot)
  | .message _ fs, slot => Json.member name (Option.map (fun r => .object (fs.members r)) slot)
  | .list t, items => Json.listMember name (List.map t.itemJson items)

/-- The members of a record. -/
def Fields.members : (fs : Fields) → fs.Record → List (String × Json)
  | .nil, _ => []
  | .cons name t rest, (slot, r) => t.slotMember name slot ++ rest.members r

end

def Fields.toJson (fs : Fields) (r : fs.Record) : Json := .object (fs.members r)

mutual

/-- Reads an item. -/
def FieldType.itemDecoder : (t : FieldType) → Decoder t.Item
  | .scalar k => k.decoder
  | .message _ fs => Decoder.record fs.names fs.slots
  | .list t => Decoder.list t.itemDecoder

/-- Reads a slot: a scalar or a message may be missing or null, a list may only be missing. -/
def FieldType.slotDecoder : (t : FieldType) → Nat → Option Json → Option t.Slot
  | .scalar k => Decoder.optional k.decoder
  | .message _ fs => Decoder.optional (Decoder.record fs.names fs.slots)
  | .list t => Decoder.orElse (Decoder.list t.itemDecoder) []

/-- Reads the slots of a record from the values of its fields. -/
def Fields.slots : (fs : Fields) → Nat → List (Option Json) → Option fs.Record
  | .nil, _, _ => some ()
  | .cons _ t rest, n, values =>
    match t.slotDecoder n (values.head?.getD none), rest.slots n values.tail with
    | some slot, some r => some (slot, r)
    | _, _ => none

end

/-- Reads a record. -/
def Fields.decoder (fs : Fields) : Decoder fs.Record := Decoder.record fs.names fs.slots

end VirtualPeople
