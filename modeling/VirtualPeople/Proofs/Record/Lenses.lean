import VirtualPeople.Proofs.Record.Naming

/-!
# Fields are lenses

Writing the scalar at the end of a path creates the messages on the way and changes nothing else:
a path to another scalar or to a list leads to what it led to before (`Path.get_set_of_ne`), and the
messages that are set are those that were, and those on the way (`Path.isSome_get_set`). In terms of
names, two names lead to one path only if they are the same, and the messages on the way are those
whose names are cut into the first pieces of the name written to (`MessageType.lens_of_field`).
-/

namespace VirtualPeople

theorem Gender.ofNumber?_number (g : Gender) : ofNumber? g.number = some g := by
  cases g <;> rfl

namespace Value

theorem as?_of : ∀ (k : ScalarKind) (v : k.Carrier), (of k v).as? k = some v
  | .int32, _ | .uint32, _ | .int64, _ | .uint64, _ | .float, _ | .double, _ | .bool, _
  | .string, _ => rfl
  | .gender, g => g.ofNumber?_number

theorem kind_of (k : ScalarKind) (v : k.Carrier) : (of k v).kind = k := by
  cases k <;> rfl

/-- A value of a kind is a stored scalar of the kind, if an enumerated value has a name. -/
theorem exists_of_kind {v : Value} {k : ScalarKind} (hkind : v.kind = k)
    (hnamed : ∀ n, v = .enum n → ∃ g : Gender, g.number = n) : ∃ c, v = of k c := by
  subst hkind
  cases v with
  | enum n =>
    obtain ⟨g, rfl⟩ := hnamed n rfl
    exact ⟨g, rfl⟩
  | _ => exact ⟨_, rfl⟩

end Value

theorem Field.write_of {fs : Fields} (f : ScalarField fs) (owner : String) (c : f.kind.Carrier)
    (r : fs.Record) : (Field.scalar f).write owner (.of f.kind c) r = .ok () (f.put c r) := by
  simp only [write, Value.as?_of]

theorem Field.write_eq_ok {fs : Fields} {f : ScalarField fs} {owner : String} {v : Value}
    {r r' : fs.Record} : (Field.scalar f).write owner v r = .ok () r' ↔
      ∃ c, v.as? f.kind = some c ∧ f.put c r = r' := by
  simp only [write]
  rcases v.as? f.kind with _ | c
  · simp
  · simp

/-- A write that is refused leaves the messages on the way created. -/
theorem Field.write_eq_error {fs : Fields} {f : ScalarField fs} {owner : String} {v : Value}
    {r r' : fs.Record} {err : Error} : (Field.scalar f).write owner v r = .error err r' ↔
      v.as? f.kind = none ∧ wrongKind v ((Field.scalar f).target owner) = err ∧
        f.path.enclose r = r' := by
  simp only [write]
  rcases v.as? f.kind with _ | c
  · simp
  · simp

/-- Where a scalar is, whatever it is called. -/
def ScalarField.place {fs : Fields} (f : ScalarField fs) : (t : FieldType) × Path fs t :=
  ⟨.scalar f.kind, f.path⟩

/-- What is read from a field is stored in any other of the kind. -/
theorem ScalarField.as?_of_get? {fs : Fields} {f g : ScalarField fs} (hkind : g.kind = f.kind)
    {r : fs.Record} {v : Value} (h : f.get? r = some v) :
    ∃ c, v.as? g.kind = some c ∧ Value.of g.kind c = v := by
  obtain ⟨c, -, rfl⟩ := Option.map_eq_some_iff.1 h
  rw [hkind]
  exact ⟨c, Value.as?_of f.kind c, rfl⟩

namespace Path

variable {k : ScalarKind}

/-- The field of the record that a path starts at. -/
def head : {fs : Fields} → {t : FieldType} → Path fs t → (t : FieldType) × fs.At t
  | _, _, .field a => ⟨_, a⟩
  | _, _, .into a _ => ⟨_, a⟩

@[simp]
theorem head_andThen {fs gs : Fields} {name : String} {t : FieldType}
    (p : Path fs (.message name gs)) (q : Path gs t) : (p.andThen q).head = p.head := by
  cases p with
  | field a => simp only [andThen, head]
  | into a p => simp only [andThen, head]

/-- No message is on the way to a field of the record itself. -/
theorem field_ne_andThen {fs gs : Fields} {name : String} {t : FieldType} {a : fs.At t}
    (p : Path fs (.message name gs)) (q : Path gs t) : .field a ≠ p.andThen q := by
  cases p with
  | field b => simp only [andThen, ne_eq, reduceCtorEq, not_false_eq_true]
  | into b p => simp only [andThen, ne_eq, reduceCtorEq, not_false_eq_true]

/-- Writing changes nothing that is reached through another field. -/
theorem get_set_of_head_ne {fs : Fields} {t u : FieldType} (q : Path fs t) (p : Path fs u)
    (h : q.head ≠ p.head) (slot : u.Slot) (r : fs.Record) : q.get (p.set slot r) = q.get r := by
  cases q with
  | field a =>
    cases p with
    | field b => exact (a.eq_or_apart b).resolve_left h _ r
    | into b p => exact (a.eq_or_apart b).resolve_left h _ r
  | into a q =>
    cases p with
    | field b => simp only [get, set, (a.eq_or_apart b).resolve_left h]
    | into b p => simp only [get, set, (a.eq_or_apart b).resolve_left h]

@[simp]
theorem get_empty : ∀ {fs : Fields} {t : FieldType} (p : Path fs t), p.get fs.empty = t.unset
  | _, _, .field a => a.get_empty
  | _, t, .into a p => by
    rw [get, a.get_empty]
    rfl

/-- Writing a scalar leaves another scalar, or a list, alone. -/
theorem get_set_of_ne {t : FieldType} (ht : ∀ name gs, t ≠ .message name gs)
    (v : Option k.Carrier) : ∀ {fs : Fields} (q : Path fs t) (p : Path fs (.scalar k)),
      (⟨t, q⟩ : (t : FieldType) × Path fs t) ≠ ⟨.scalar k, p⟩ →
      ∀ r : fs.Record, q.get (p.set v r) = q.get r
  | _, .field a, .field b, hne, r => by
    refine get_set_of_head_ne (field a) (field b) (fun hhead => hne ?_) v r
    cases hhead
    rfl
  | _, .field a, .into b p, _, r =>
    get_set_of_head_ne (field a) (into b p) (fun hhead => ht _ _ (congrArg Sigma.fst hhead)) v r
  | _, .into a q, .field b, _, r =>
    get_set_of_head_ne (into a q) (field b) (fun hhead => nomatch congrArg Sigma.fst hhead) v r
  | _, .into a q, .into b p, hne, r => by
    by_cases hhead : (into a q).head = (into b p).head
    · cases hhead
      have hrest := get_set_of_ne ht v q p fun heq => hne (by cases heq; rfl)
      simp only [get, set, Fields.At.get_set, hrest]
      rcases a.get r with _ | m
      · exact q.get_empty
      · rfl
    · exact get_set_of_head_ne _ _ hhead v r

/-- Writing a scalar sets the messages on the way to it and leaves the others as they were. -/
theorem isSome_get_set {n : String} {gs : Fields} (v : Option k.Carrier) :
    ∀ {fs : Fields} (q : Path fs (.message n gs)) (p : Path fs (.scalar k)) (r : fs.Record),
      Option.isSome (q.get (p.set v r)) ↔
        (∃ rest, p = q.andThen rest) ∨ Option.isSome (q.get r)
  | _, q, p, r => by
    by_cases hhead : q.head = p.head
    · cases q with
      | field a =>
        cases p with
        | field b => cases hhead
        | into b p =>
          cases hhead
          simp [get, set, andThen]
      | into a q =>
        cases p with
        | field b => cases hhead
        | into b p =>
          cases hhead
          simp only [get, set, Fields.At.get_set, isSome_get_set v q p, andThen, into.injEq,
            heq_eq_eq, true_and]
          rcases a.get r with _ | m
          · simp [FieldType.unset]
          · simp
    · rw [get_set_of_head_ne q p hhead]
      refine ⟨.inr, fun h => h.resolve_left ?_⟩
      rintro ⟨rest, rfl⟩
      exact hhead (q.head_andThen rest).symm

/-- The names of the fields on a path, that at the end too. -/
def names : {fs : Fields} → {t : FieldType} → Path fs t → List String
  | _, _, .field a => [a.name]
  | _, _, .into a p => a.name :: p.names

theorem names_andThen {gs : Fields} {name : String} {t : FieldType} (q : Path gs t) :
    ∀ {fs : Fields} (p : Path fs (.message name gs)), (p.andThen q).names = p.names ++ q.names
  | _, .field a => by simp only [andThen, names, List.singleton_append]
  | _, .into a p => by simp only [andThen, names, names_andThen q p, List.cons_append]

end Path

theorem Fields.name_of_find? : ∀ {fs : Fields} {name : String} {t : FieldType} {a : fs.At t},
    fs.find? name = some ⟨t, a⟩ → a.name = name
  | .cons n u rest, name, t, a, h => by
    unfold find? at h
    split_ifs at h with hname
    · cases h
      exact hname
    · obtain ⟨⟨u, b⟩, hb, heq⟩ := Option.map_eq_some_iff.1 h
      cases heq
      have hrest : b.name = name := name_of_find? hb
      exact hrest

/-- The path that names lead along has these names. -/
theorem Path.names_of_find? : ∀ {names : List String} {fs : Fields} {t : FieldType}
    {p : Path fs t}, find? fs names = some ⟨t, p⟩ → p.names = names
  | [], _, _, _, h => by
    rw [find?] at h
    cases h
  | [name], _, _, _, h => by
    obtain ⟨a, ha, rfl⟩ := find?_singleton.1 h
    rw [Path.names, Fields.name_of_find? ha]
  | name :: next :: rest, _, _, _, h => by
    obtain ⟨_, _, a, q, ha, hq, rfl⟩ := (find?_cons (List.cons_ne_nil next rest)).1 h
    rw [Path.names, Fields.name_of_find? ha, names_of_find? hq]

namespace MessageType

variable {m : MessageType} {name : String}

theorem find?_of_scalar {f : ScalarField m.fields} (h : m.field name = .ok (.scalar f)) :
    Path.find? m.fields (Text.split '.' name) = some ⟨.scalar f.kind, f.path⟩ := by
  obtain ⟨k, p, hp, heq⟩ | ⟨_, _, _, -, heq⟩ := field_eq_ok h
  · cases heq
    exact hp
  · cases heq

theorem find?_of_message {f : MessageField m.fields} (h : m.field name = .ok (.message f)) :
    Path.find? m.fields (Text.split '.' name) = some ⟨.message f.name f.fields, f.path⟩ := by
  obtain ⟨_, _, -, heq⟩ | ⟨n, gs, p, hp, heq⟩ := field_eq_ok h
  · cases heq
  · cases heq
    exact hp

/-- The messages on the way to a scalar are those whose pieces its name starts with. -/
theorem exists_andThen_iff {outer : String} {f : ScalarField m.fields} {g : MessageField m.fields}
    (hf : m.field name = .ok (.scalar f)) (hg : m.field outer = .ok (.message g)) :
    (∃ rest, f.path = g.path.andThen rest) ↔ Text.split '.' outer <+: Text.split '.' name := by
  have hpath := find?_of_scalar hf
  have houter := find?_of_message hg
  constructor
  · rintro ⟨rest, heq⟩
    rw [← Path.names_of_find? hpath, ← Path.names_of_find? houter, heq, Path.names_andThen]
    exact List.prefix_append _ _
  · rintro ⟨onward, hpieces⟩
    have honward : onward ≠ [] := by
      rintro rfl
      rw [List.append_nil] at hpieces
      rw [hpieces, hpath] at houter
      cases houter
    rw [← hpieces, Path.find?_append honward houter] at hpath
    obtain ⟨rest, -, heq⟩ := hpath
    exact ⟨rest, heq⟩

/-- Writing a value to a scalar of its kind succeeds and is read back. Every other name of a scalar
reads what it read before; the messages that are set are those that were and those on the way, whose
pieces the name starts with; and every list is the same. -/
theorem lens_of_field {f : ScalarField m.fields} (hf : m.field name = .ok (.scalar f)) {v : Value}
    (hkind : v.kind = f.kind) (hnamed : ∀ n, v = .enum n → ∃ g : Gender, g.number = n)
    (r : m.fields.Record) :
    ∃ s, (Field.scalar f).write m.name v r = .ok () s ∧ f.get? s = some v ∧
      (∀ other g, other ≠ name → m.field other = .ok (.scalar g) → g.get? s = g.get? r) ∧
      (∀ outer g, m.field outer = .ok (.message g) →
        ((Field.message g).isSet s ↔
          Text.split '.' outer <+: Text.split '.' name ∨ (Field.message g).isSet r)) ∧
      ∀ t (q : Path m.fields (.list t)), q.get s = q.get r := by
  obtain ⟨c, rfl⟩ := Value.exists_of_kind hkind hnamed
  refine ⟨f.put c r, Field.write_of f m.name c r, ?_, ?_, ?_, ?_⟩
  · simp only [ScalarField.get?, ScalarField.get, ScalarField.put, Path.get_set, Option.map_some]
  · intro other g hother hg
    have hapart : g.path.get (f.path.set (some c) r) = g.path.get r := by
      refine Path.get_set_of_ne (by simp) _ g.path f.path (fun heq => hother ?_) r
      have hnames := congrArg (fun q : (t : FieldType) × Path m.fields t => q.2.names) heq
      refine Text.split_inj (?_ : Text.split '.' other = Text.split '.' name)
      rw [← Path.names_of_find? (find?_of_scalar hg), ← Path.names_of_find? (find?_of_scalar hf)]
      exact hnames
    simp only [ScalarField.get?, ScalarField.get, ScalarField.put, hapart]
  · intro outer g hg
    rw [← exists_andThen_iff hf hg]
    exact Path.isSome_get_set (some c) g.path f.path r
  · exact fun t q => Path.get_set_of_ne (by simp) (some c) q f.path (by simp) r

/-- The gender in the label of an event. -/
def labelGender : ScalarField Schema.event.fields :=
  ⟨"label.demo.gender", .gender,
    .into (.there (.there (.there (.there (.there (.there (.there (.there .here))))))))
      (.into .here (.field .here))⟩

theorem lens_of_field_labelGender :
    Schema.event.field "label.demo.gender" = .ok (.scalar labelGender) ∧ ∃ e : Event,
    (Field.scalar labelGender).write "LabelerEvent" (.enum 1)
      (Event.withActivities [Schema.activity.fields.empty] Event.empty) = .ok () e ∧
    labelGender.get? e = some (.enum 1) ∧ Event.actingFingerprint e = none ∧
    Event.activities e = [Schema.activity.fields.empty] ∧
    ∀ g, Schema.event.field "label.demo" = .ok (.message g) → (Field.message g).isSet e := by
  obtain ⟨e, hwrite, hget, hother, hset, hlists⟩ :=
    @lens_of_field Schema.event "label.demo.gender" labelGender rfl (.enum 1) rfl
      (fun n hn => ⟨.female, by cases hn; rfl⟩)
      (Event.withActivities [Schema.activity.fields.empty] Event.empty)
  refine ⟨rfl, e, hwrite, hget, ?_, hlists _ (.field Event.activitiesField), fun g hg => ?_⟩
  · have hfingerprint := hother "acting_fingerprint" ⟨_, .uint64, .field .here⟩ (by decide) rfl
    exact Option.map_eq_none_iff.1 hfingerprint
  · exact (hset _ g hg).2 (.inl (by decide +kernel))

end MessageType

end VirtualPeople
