import VirtualPeople.Proofs.Record.Codec
import VirtualPeople.Proofs.Record.Naming

/-!
# Every field has a name

If no message has two fields of one name, and no name has a dot in it, then every field that a path
leads to is what some name refers to (`Path.exists_text`). The schema of events is of this kind.
-/

namespace VirtualPeople

mutual

/-- Whether no field of a message has a dot in its name. -/
def FieldType.undotted : FieldType → Bool
  | .scalar _ => true
  | .message _ fs => fs.undotted
  | .list t => t.undotted

def Fields.undotted : Fields → Bool
  | .nil => true
  | .cons name t rest => !name.toList.contains '.' && t.undotted && rest.undotted

end

namespace Fields.At

theorem distinct_type : ∀ {fs : Fields} {t : FieldType}, fs.At t → fs.distinct → t.distinct
  | _, _, .here, h => (Bool.and_eq_true_iff.1 (Bool.and_eq_true_iff.1 h).1).2
  | _, _, .there a, h => a.distinct_type (Bool.and_eq_true_iff.1 h).2

theorem undotted_type : ∀ {fs : Fields} {t : FieldType}, fs.At t → fs.undotted → t.undotted
  | _, _, .here, h => (Bool.and_eq_true_iff.1 (Bool.and_eq_true_iff.1 h).1).2
  | _, _, .there a, h => a.undotted_type (Bool.and_eq_true_iff.1 h).2

theorem split_name {fs : Fields} {t : FieldType} (a : fs.At t) (h : fs.undotted) :
    Text.split '.' a.name = [a.name] := by
  induction a with
  | here =>
    simp only [undotted, Bool.and_eq_true, Bool.not_eq_true', List.contains_eq_mem,
      decide_eq_false_iff_not] at h
    exact Text.split_of_not_mem h.1.1
  | there a ih => exact ih (Bool.and_eq_true_iff.1 h).2

theorem name_mem : ∀ {fs : Fields} {t : FieldType} (a : fs.At t), a.name ∈ fs.names
  | _, _, .here => List.mem_cons_self
  | _, _, .there a => List.mem_cons_of_mem _ a.name_mem

/-- A field is the one that its name refers to. -/
theorem find?_name : ∀ {fs : Fields} {t : FieldType} (a : fs.At t), fs.distinct →
    fs.find? a.name = some ⟨t, a⟩
  | _, _, .here, _ => if_pos rfl
  | .cons name _ rest, _, .there a, h => by
    simp only [distinct, Bool.and_eq_true, Bool.not_eq_true', List.contains_eq_mem,
      decide_eq_false_iff_not] at h
    have hne : name ≠ a.name := fun heq => h.1.1 (heq ▸ a.name_mem)
    show (if name = a.name then _ else (rest.find? a.name).map _) = _
    rw [if_neg hne, a.find?_name h.2]
    rfl

theorem find?_split {fs : Fields} {t : FieldType} (a : fs.At t) (hd : fs.distinct)
    (hu : fs.undotted) : Path.find? fs (Text.split '.' a.name) = some ⟨t, .field a⟩ := by
  rw [a.split_name hu]
  exact Path.find?_singleton.2 ⟨a, a.find?_name hd, rfl⟩

end Fields.At

theorem Path.distinct_type : ∀ {fs : Fields} {t : FieldType}, Path fs t → fs.distinct → t.distinct
  | _, _, .field a, h => a.distinct_type h
  | _, _, .into a p, h => p.distinct_type (a.distinct_type h)

/-- Every path is the one that some name leads along. -/
theorem Path.exists_text : ∀ {fs : Fields} {t : FieldType} (p : Path fs t), fs.distinct →
    fs.undotted → ∃ text, find? fs (Text.split '.' text) = some ⟨t, p⟩
  | _, _, .field a, hd, hu => ⟨a.name, a.find?_split hd hu⟩
  | _, _, .into a p, hd, hu => by
    obtain ⟨text, htext⟩ := p.exists_text (a.distinct_type hd) (a.undotted_type hu)
    refine ⟨a.name ++ "." ++ text, ?_⟩
    rw [Text.split_dot, find?_append (Text.split_ne_nil '.' text) (a.find?_split hd hu)]
    exact ⟨p, htext, by simp only [andThen]⟩

theorem event_distinct : Schema.event.fields.distinct := by decide +kernel

theorem event_undotted : Schema.event.fields.undotted := by decide +kernel

/-- Every scalar of an event has a name. -/
theorem Event.exists_field {k : ScalarKind} (p : Path Schema.event.fields (.scalar k)) :
    ∃ text, Schema.event.field text = .ok (.scalar ⟨text, k, p⟩) := by
  obtain ⟨text, htext⟩ := p.exists_text event_distinct event_undotted
  exact ⟨text, MessageType.field_scalar htext⟩

end VirtualPeople
