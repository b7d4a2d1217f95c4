import VirtualPeople.Filter.Basic

/-!
# The filter that a record stands for

A record stands for the condition that every scalar set in it, in its messages too, is set to an
equal value. A list that has items stands for nothing, so a record with one is refused.
-/

namespace VirtualPeople

mutual

/-- The conditions of a slot that a path leads to. -/
def FieldType.conditions {root : Fields} :
    (t : FieldType) → String → Path root t → t.Slot → Except Error (List (Filter root))
  | .scalar k, text, path, slot =>
    match slot with
    | none => .ok []
    | some v => .ok [.equal ⟨text, k, path⟩ v]
  | .message _ fs, text, path, slot =>
    match slot with
    | none => .ok []
    | some r => Fields.conditions fs (text ++ ".") (fun a => path.andThen (.field a)) r
  | .list _, text, _, items =>
    match items with
    | [] => .ok []
    | _ :: _ => invalidModel (.repeatedCondition text)

/-- The conditions of a record whose fields `reach` leads to. -/
def Fields.conditions {root : Fields} : (fs : Fields) → String →
    ({t : FieldType} → fs.At t → Path root t) → fs.Record → Except Error (List (Filter root))
  | .nil, _, _, _ => .ok []
  | .cons name t rest, before, reach, (slot, r) => do
    let first ← FieldType.conditions t (before ++ name) (reach .here) slot
    let others ← Fields.conditions rest before (fun a => reach (.there a)) r
    return first ++ others

end

/-- The filter that a record stands for. -/
def Filter.ofRecord {fs : Fields} (r : fs.Record) : Except Error (Filter fs) := do
  match ← Fields.conditions fs "" .field r with
  | [] => return .always
  | [condition] => return condition
  | conditions => return .all (.ofList conditions)

end VirtualPeople
