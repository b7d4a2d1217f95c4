import VirtualPeople.Proofs.Filter.Condition
import VirtualPeople.Proofs.Number.Order
import VirtualPeople.Proofs.Record.Addressing
import VirtualPeople.Proofs.Record.Merging

/-!
# Records as templates

A record stands for a filter just if no list in it has items (`Filter.exists_ofRecord_iff`). Every
condition is on a scalar by a name that refers to it (`Fields.conditions_named`), so nothing is lost
in going from the schema to names and back. If no scalar of the record differs from itself, which a
number that is none does, then the filter holds of the record and of all that it is merged into.
-/

namespace VirtualPeople

/-- No list in a record, or in a message that is set in it, has items. -/
def Fields.Plain {fs : Fields} (r : fs.Record) : Prop :=
  ∀ t (p : Path fs (.list t)), p.get r = []

/-- The same for what a slot holds. -/
def FieldType.Plain : (t : FieldType) → t.Slot → Prop
  | .scalar _, _ => True
  | .message _ fs, slot => ∀ m, slot = some m → fs.Plain m
  | .list _, items => items = []

theorem Fields.plain_cons {name : String} {t : FieldType} {rest : Fields} {slot : t.Slot}
    {r : rest.Record} :
    (Fields.cons name t rest).Plain (slot, r) ↔ t.Plain slot ∧ rest.Plain r := by
  constructor
  · intro h
    constructor
    · cases t with
      | scalar k => trivial
      | message n fs =>
        intro m hm u p
        obtain rfl : slot = some m := hm
        exact h u (.into .here p)
      | list t => exact h t (.field .here)
    · intro u p
      cases p with
      | field a => exact h u (.field (.there a))
      | into a p => exact h u (.into (.there a) p)
  · rintro ⟨hslot, hrest⟩ u p
    cases p with
    | field a =>
      cases a with
      | here => exact hslot
      | there a => exact hrest u (.field a)
    | into a p =>
      cases a with
      | here =>
        rcases slot with _ | m
        · rfl
        · exact hslot m rfl u p
      | there a => exact hrest u (.into a p)

mutual

theorem FieldType.exists_conditions_iff {root : Fields} : ∀ {t : FieldType} (text : String)
    (path : Path root t) {slot : t.Slot},
    (∃ conditions, t.conditions text path slot = .ok conditions) ↔ t.Plain slot
  | .scalar _, _, _, none => iff_of_true ⟨_, rfl⟩ trivial
  | .scalar _, _, _, some _ => iff_of_true ⟨_, rfl⟩ trivial
  | .message _ _, _, _, none => iff_of_true ⟨_, rfl⟩ nofun
  | .message _ fs, text, path, some m => by
    refine (Fields.exists_conditions_iff (text ++ ".") fun a => path.andThen (.field a)).trans ?_
    simp [FieldType.Plain]
  | .list _, _, _, [] => iff_of_true ⟨_, rfl⟩ rfl
  | .list _, _, _, _ :: _ =>
    iff_of_false (fun ⟨_, h⟩ => invalidModel_ne_ok h) (List.cons_ne_nil _ _)

/-- A record has conditions just if it is plain. -/
theorem Fields.exists_conditions_iff {root : Fields} : ∀ {fs : Fields} (text : String)
    (reach : {t : FieldType} → fs.At t → Path root t) {r : fs.Record},
    (∃ conditions, Fields.conditions fs text reach r = .ok conditions) ↔ fs.Plain r
  | .nil, _, _, _ => by
    refine iff_of_true ⟨_, rfl⟩ fun t p => ?_
    cases p with
    | field a => cases a
    | into a p => cases a
  | .cons name t rest, text, reach, (slot, r) => by
    rw [Fields.plain_cons, ← FieldType.exists_conditions_iff (text ++ name) (reach .here),
      ← Fields.exists_conditions_iff text fun a => reach (.there a)]
    simp only [Fields.conditions, bind_eq_ok, pure_eq_ok]
    constructor
    · rintro ⟨-, first, hfirst, others, hothers, -⟩
      exact ⟨⟨first, hfirst⟩, others, hothers⟩
    · rintro ⟨⟨first, hfirst⟩, others, hothers⟩
      exact ⟨_, first, hfirst, others, hothers, rfl⟩

end

theorem Filter.exists_ofRecord_iff {fs : Fields} {r : fs.Record} :
    (∃ f, Filter.ofRecord r = .ok f) ↔ fs.Plain r := by
  rw [← Fields.exists_conditions_iff "" .field]
  unfold ofRecord
  simp only [bind_eq_ok]
  constructor
  · rintro ⟨-, conditions, hconditions, -⟩
    exact ⟨conditions, hconditions⟩
  · rintro ⟨conditions, hconditions⟩
    rcases conditions with _ | ⟨first, _ | ⟨second, rest⟩⟩
    · exact ⟨_, _, hconditions, rfl⟩
    · exact ⟨_, _, hconditions, rfl⟩
    · exact ⟨_, _, hconditions, rfl⟩

section

variable {m : MessageType}

/-- A filter asks whether a scalar, by a name that refers to it, equals a value. -/
def Filter.AsksByName (c : Filter m.fields) : Prop :=
  ∃ f v, c = .equal f v ∧ m.field f.text = .ok (.scalar f)

mutual

theorem FieldType.conditions_named : ∀ {t : FieldType} {text : String} {path : Path m.fields t}
    {slot : t.Slot} {conditions : List (Filter m.fields)}, t.distinct → t.undotted →
    Path.find? m.fields (Text.split '.' text) = some ⟨t, path⟩ →
    t.conditions text path slot = .ok conditions → ∀ c ∈ conditions, Filter.AsksByName c
  | .scalar _, _, _, none, _, _, _, _, h => by
    cases h
    exact nofun
  | .scalar k, text, path, some v, _, _, _, hpath, h => by
    cases h
    rintro c hc
    rw [List.mem_singleton.1 hc]
    exact ⟨⟨text, k, path⟩, v, rfl, MessageType.field_scalar hpath⟩
  | .message _ _, _, _, none, _, _, _, _, h => by
    cases h
    exact nofun
  | .message n fs, text, path, some r, _, hd, hu, hpath, h => by
    refine Fields.conditions_named hd hu (fun a => ?_) h
    rw [Text.split_dot, Path.find?_append (Text.split_ne_nil '.' a.name) hpath]
    exact ⟨.field a, a.find?_split hd hu, rfl⟩
  | .list _, _, _, [], _, _, _, _, h => by
    cases h
    exact nofun
  | .list _, _, _, _ :: _, _, _, _, _, h => (invalidModel_ne_ok h).elim

theorem Fields.conditions_named : ∀ {fs : Fields} {text : String}
    {reach : {t : FieldType} → fs.At t → Path m.fields t} {r : fs.Record}
    {conditions : List (Filter m.fields)}, fs.distinct → fs.undotted →
    (∀ {t : FieldType} (a : fs.At t),
      Path.find? m.fields (Text.split '.' (text ++ a.name)) = some ⟨t, reach a⟩) →
    Fields.conditions fs text reach r = .ok conditions → ∀ c ∈ conditions, Filter.AsksByName c
  | .nil, _, _, _, _, _, _, _, h => by
    cases h
    exact nofun
  | .cons name t rest, text, reach, (slot, r), _, hd, hu, hreach, h => by
    simp only [Fields.distinct, Fields.undotted, Bool.and_eq_true] at hd hu
    simp only [Fields.conditions, bind_eq_ok, pure_eq_ok] at h
    obtain ⟨first, hfirst, others, hothers, rfl⟩ := h
    refine List.forall_mem_append.2 ⟨?_, ?_⟩
    · exact FieldType.conditions_named hd.1.2 hu.1.2 (hreach .here) hfirst
    · exact Fields.conditions_named hd.2 hu.2 (fun a => hreach (.there a)) hothers

end

end

/-- Whether a scalar is a number, where its kind is of numbers. -/
def ScalarKind.isNumber : (k : ScalarKind) → k.Carrier → Bool
  | float, v => VirtualPeople.isNumber (widen v)
  | double, v => VirtualPeople.isNumber v
  | _, _ => true

theorem ScalarKind.beq_self_iff {k : ScalarKind} {v : k.Carrier} : k.beq v v ↔ k.isNumber v := by
  cases k with
  | float => exact (double_beq_iff _ _).trans (by simp [isNumber])
  | double => exact (double_beq_iff _ _).trans (by simp [isNumber])
  | _ => exact iff_of_true (beq_iff_eq.2 rfl) rfl

namespace Event

/-- A name refers to a scalar that is set to a value in an event. -/
def Sets (e : Event) (text : String) (f : ScalarField Schema.event.fields)
    (v : f.kind.Carrier) : Prop :=
  Schema.event.field text = .ok (.scalar f) ∧ f.get e = some v

/-- No scalar that is set in an event is a number that is none. -/
def Numeric (e : Event) : Prop := ∀ text f v, Sets e text f v → f.kind.isNumber v

theorem sets_merge {e c : Event} {text : String} {f : ScalarField Schema.event.fields}
    {v : f.kind.Carrier} (h : Sets c text f v) : Sets (merge e c) text f v := by
  obtain ⟨hfield, hset⟩ := h
  have hmerged := f.get_merge e c
  rw [hset, Option.some_or] at hmerged
  exact ⟨hfield, hmerged⟩

end Event

namespace Filter

variable {c : Event} {f : Filter Schema.event.fields}

theorem holds_ofRecord_event (hf : ofRecord c = .ok f) (e : Event) :
    f.holds e ↔
      ∀ text g v, Event.Sets c text g v → ∃ w, Event.Sets e text g w ∧ g.kind.beq w v := by
  rw [holds_ofRecord hf]
  constructor
  · rintro h text g v ⟨hfield, hset⟩
    obtain ⟨w, hw, heq⟩ := h g.kind g.path v hset
    exact ⟨w, ⟨hfield, hw⟩, heq⟩
  · intro h k p v hset
    obtain ⟨text, hfield⟩ := Event.exists_field p
    obtain ⟨w, ⟨-, hw⟩, heq⟩ := h text ⟨text, k, p⟩ v ⟨hfield, hset⟩
    exact ⟨w, hw, heq⟩

/-- Of an event with all the scalars of another, the filter of the other holds if they equal
themselves. -/
theorem holds_iff_numeric (hf : ofRecord c = .ok f) {e : Event}
    (h : ∀ text g v, Event.Sets c text g v → Event.Sets e text g v) :
    f.holds e ↔ Event.Numeric c := by
  rw [holds_ofRecord_event hf]
  refine forall₄_congr fun text g v hset => ?_
  rw [← ScalarKind.beq_self_iff]
  constructor
  · rintro ⟨w, hw, heq⟩
    obtain rfl : w = v := Option.some.inj (hw.2.symm.trans (h text g v hset).2)
    exact heq
  · exact fun heq => ⟨v, h text g v hset, heq⟩

theorem conditions_event_named {conditions : List (Filter Schema.event.fields)}
    (h : Fields.conditions Schema.event.fields "" .field c = .ok conditions) :
    ∀ q ∈ conditions, AsksByName (m := Schema.event) q := by
  refine Fields.conditions_named event_distinct event_undotted (fun a => ?_) h
  rw [String.empty_append]
  exact a.find?_split event_distinct event_undotted

/-- An event stands for a filter just if no list in it has items, and each of its conditions is on
a scalar by a name that refers to it. The filter holds of the events that have an equal value
wherever a name refers to a scalar that is set; so it holds of the event itself, and of each event
that it is merged into, just if all its numbers are numbers. -/
theorem ofRecord_event (c : Event) :
    ((∃ f, ofRecord c = .ok f) ↔ ∀ t (p : Path Schema.event.fields (.list t)), p.get c = []) ∧
    (∀ conditions, Fields.conditions Schema.event.fields "" .field c = .ok conditions →
      ∀ q ∈ conditions, AsksByName (m := Schema.event) q) ∧
    ∀ f, ofRecord c = .ok f →
      (∀ e : Event, f.holds e ↔
        ∀ text g v, Event.Sets c text g v → ∃ w, Event.Sets e text g w ∧ g.kind.beq w v) ∧
      (f.holds c ↔ Event.Numeric c) ∧
      ∀ e : Event, f.holds (Event.merge e c) ↔ Event.Numeric c :=
  ⟨exists_ofRecord_iff, fun _ => conditions_event_named, fun _ hf => ⟨holds_ofRecord_event hf,
    holds_iff_numeric hf fun _ _ _ hset => hset,
    fun _ => holds_iff_numeric hf fun _ _ _ hset => Event.sets_merge hset⟩⟩

/-- An event that sets nothing but its expected multiplicity. -/
def expectingHalf : Event :=
  Fields.At.set (.there (.there (.there (.there .here)))) (some 0.5) Event.empty

theorem ofRecord_event_expectingHalf : ∃ f, ofRecord expectingHalf = .ok f ∧
    f.holds expectingHalf ∧ ¬ f.holds Event.empty ∧
    f.holds (Event.merge (Event.withFingerprint 7 Event.empty) expectingHalf) := by
  obtain ⟨-, -, h⟩ := ofRecord_event expectingHalf
  obtain ⟨hholds, hself, hmerge⟩ := h _ rfl
  have hnumeric : Event.Numeric expectingHalf := by
    rintro text ⟨name, k, p⟩ v ⟨-, hset⟩
    have hp := p.eq_of_isSome (.there (.there (.there (.there .here)))) 0.5
      (congrArg Option.isSome hset)
    cases hp
    obtain rfl := Option.some.inj hset
    rfl
  exact ⟨_, rfl, hself.2 hnumeric, by decide, (hmerge _).2 hnumeric⟩

end Filter

end VirtualPeople
