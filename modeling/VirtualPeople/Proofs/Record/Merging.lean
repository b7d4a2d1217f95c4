import VirtualPeople.Proofs.Record.Frame
import VirtualPeople.Record.Field

/-!
# Merging, path by path

Merging is associative, and an empty record is its unit on both sides (`Fields.merge_assoc`,
`Fields.empty_merge`, `Fields.merge_empty`). What a path leads to in a merged record is what it
leads to in the two records, merged (`Path.get_merge`), whether the messages on the way are set in
both, in one or in none: a slot behind an unset message holds nothing, which is the unit of its
type.
-/

namespace VirtualPeople

namespace FieldType

@[simp]
theorem merge_unset : ∀ {t : FieldType} (a : t.Slot), t.merge a t.unset = a
  | .scalar _, _ => rfl
  | .message _ _, none => rfl
  | .message _ _, some _ => rfl
  | .list _, a => List.append_nil a

@[simp]
theorem unset_merge : ∀ {t : FieldType} (b : t.Slot), t.merge t.unset b = b
  | .scalar _, none => rfl
  | .scalar _, some _ => rfl
  | .message _ _, none => rfl
  | .message _ _, some _ => rfl
  | .list _, _ => rfl

theorem merge_scalar {k : ScalarKind} (a b : Option k.Carrier) :
    (scalar k).merge a b = b.or a := by
  cases b with
  | none => rfl
  | some v => rfl

theorem merge_none {name : String} {fs : Fields} (a : Option fs.Record) :
    (message name fs).merge a none = a :=
  merge_unset (t := message name fs) a

theorem none_merge {name : String} {fs : Fields} (b : Option fs.Record) :
    (message name fs).merge none b = b :=
  unset_merge (t := message name fs) b

theorem isSome_merge_message {name : String} {fs : Fields} (a b : Option fs.Record) :
    Option.isSome ((message name fs).merge a b) = (a.isSome || b.isSome) := by
  cases a with
  | none =>
    cases b with
    | none => rfl
    | some y => rfl
  | some x =>
    cases b with
    | none => rfl
    | some y => rfl

end FieldType

namespace Fields

@[simp]
theorem merge_empty : ∀ {fs : Fields} (a : fs.Record), fs.merge a fs.empty = a
  | .nil, _ => rfl
  | .cons _ t rest, (slot, r) => by
    show (t.merge slot t.unset, rest.merge r rest.empty) = (slot, r)
    rw [t.merge_unset, merge_empty r]

@[simp]
theorem empty_merge : ∀ {fs : Fields} (b : fs.Record), fs.merge fs.empty b = b
  | .nil, _ => rfl
  | .cons _ t rest, (slot, r) => by
    show (t.merge t.unset slot, rest.merge rest.empty r) = (slot, r)
    rw [t.unset_merge, empty_merge r]

end Fields

/-- A message is merged into the one that is there, or into an empty one. -/
theorem FieldType.merge_some {name : String} {fs : Fields} (a : Option fs.Record)
    (y : fs.Record) :
    (FieldType.message name fs).merge a (some y) = some (fs.merge (a.getD fs.empty) y) := by
  cases a with
  | none =>
    show some y = some (fs.merge fs.empty y)
    rw [Fields.empty_merge]
  | some x => rfl

mutual

theorem FieldType.merge_assoc : ∀ {t : FieldType} (a b c : t.Slot),
    t.merge (t.merge a b) c = t.merge a (t.merge b c)
  | .scalar k, a, b, c => by simp only [FieldType.merge_scalar, Option.or_assoc]
  | .message _ _, a, b, none => by simp only [FieldType.merge_none]
  | .message _ _, a, none, some z => by simp only [FieldType.merge_none, FieldType.none_merge]
  | .message _ fs, a, some y, some z => by
    simp only [FieldType.merge_some, Option.getD_some, Fields.merge_assoc]
  | .list _, a, b, c => List.append_assoc a b c

theorem Fields.merge_assoc : ∀ {fs : Fields} (a b c : fs.Record),
    fs.merge (fs.merge a b) c = fs.merge a (fs.merge b c)
  | .nil, _, _, _ => rfl
  | .cons _ t rest, (x, a), (y, b), (z, c) => by
    show (t.merge (t.merge x y) z, rest.merge (rest.merge a b) c) =
      (t.merge x (t.merge y z), rest.merge a (rest.merge b c))
    rw [FieldType.merge_assoc x y z, Fields.merge_assoc a b c]

end

namespace Path

/-- A path leads in a merged record to what it leads to in the two, merged. -/
theorem get_merge : ∀ {fs : Fields} {t : FieldType} (p : Path fs t) (a b : fs.Record),
    p.get (fs.merge a b) = t.merge (p.get a) (p.get b)
  | _, _, .field f, a, b => f.get_merge a b
  | fs, t, .into f p, a, b => by
    simp only [get, f.get_merge a b]
    rcases f.get a with _ | x <;> rcases f.get b with _ | y
    · exact (t.merge_unset t.unset).symm
    · exact (t.unset_merge (p.get y)).symm
    · exact (t.merge_unset (p.get x)).symm
    · exact get_merge p x y

end Path

theorem ScalarField.get_merge {fs : Fields} (f : ScalarField fs) (a b : fs.Record) :
    f.get (fs.merge a b) = (f.get b).or (f.get a) :=
  (f.path.get_merge a b).trans (FieldType.merge_scalar _ _)

/-- Merging is associative with the empty record as its unit. In a merged record a scalar is that of
the second record, or of the first if the second has none; a message is set if either has it; and a
list has the items of the first before those of the second. -/
theorem Fields.merge_laws (fs : Fields) :
    (∀ a b c : fs.Record, fs.merge (fs.merge a b) c = fs.merge a (fs.merge b c)) ∧
    (∀ a : fs.Record, fs.merge fs.empty a = a ∧ fs.merge a fs.empty = a) ∧
    ∀ a b : fs.Record,
      (∀ f : ScalarField fs, f.get? (fs.merge a b) = (f.get? b).or (f.get? a)) ∧
      (∀ f : MessageField fs, (Field.message f).isSet (fs.merge a b) =
        ((Field.message f).isSet a || (Field.message f).isSet b)) ∧
      ∀ t (p : Path fs (.list t)), p.get (fs.merge a b) = p.get a ++ p.get b := by
  refine ⟨Fields.merge_assoc, fun a => ⟨Fields.empty_merge a, Fields.merge_empty a⟩,
    fun a b => ⟨fun f => ?_, fun f => ?_, fun t p => p.get_merge a b⟩⟩
  · simp only [ScalarField.get?, f.get_merge, Option.map_or]
  · show Option.isSome (f.path.get (fs.merge a b)) = _
    rw [f.path.get_merge, FieldType.isSome_merge_message]
    rfl

end VirtualPeople
