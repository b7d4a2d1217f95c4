import VirtualPeople.Proofs.Outcome
import VirtualPeople.Proofs.Record.Frame

/-!
# Names behind names

A dotted name behind the name of a message leads to what the name leads to from there
(`MessageType.field_within`): the pieces of the names stand one behind the other, and so do the
paths. A field of a message and the field of an enclosing record that it is then read as are related
by `Field.Mirrors`, for records in which the message may be unset. A field by another name than the
first field, if that is a scalar, leaves it alone when it is written (`Path.fst_set`), which for
events is the fingerprint (`Event.fingerprint_put`).
-/

namespace VirtualPeople

namespace Text

theorem pieces_eq_splitOn (separator : Char) (cs : List Char) :
    pieces separator cs = cs.splitOn separator := by
  induction cs with
  | nil => rfl
  | cons c cs ih =>
    rw [pieces, ih, List.splitOn_cons_eq_if_modifyHead]
    by_cases h : c = separator
    · simp [h]
    · rcases hrest : cs.splitOn separator with _ | ⟨piece, rest⟩
      · exact absurd hrest (List.splitOn_ne_nil _ _)
      · simp [h]

theorem split_eq_map_splitOn (separator : Char) (s : String) :
    split separator s = (s.toList.splitOn separator).map String.ofList := by
  rw [split, pieces_eq_splitOn]

theorem split_ne_nil (separator : Char) (s : String) : split separator s ≠ [] := by
  simp [split_eq_map_splitOn]

/-- A text behind a dot is cut by itself. -/
theorem split_dot (s t : String) : split '.' (s ++ "." ++ t) = split '.' s ++ split '.' t := by
  have hchars : (s ++ "." ++ t).toList = s.toList ++ '.' :: t.toList := by
    simp
  simp only [split_eq_map_splitOn, hchars, List.splitOn_append_cons_self, List.map_append]

/-- A text is told by its pieces. -/
theorem split_inj {separator : Char} {s t : String} (h : split separator s = split separator t) :
    s = t := by
  have hofList : Function.Injective String.ofList := fun a b hab => by
    simpa using congrArg String.toList hab
  rw [split_eq_map_splitOn, split_eq_map_splitOn] at h
  have hchars := congrArg ([separator].intercalate ·) (List.map_injective_iff.2 hofList h)
  simp only [List.intercalate_splitOn] at hchars
  exact String.toList_inj.1 hchars

theorem split_of_not_mem {separator : Char} {s : String} (h : separator ∉ s.toList) :
    split separator s = [s] := by
  rw [split_eq_map_splitOn, List.splitOn_eq_singleton h, List.map_singleton, String.ofList_toList]

end Text

namespace Path

theorem find?_singleton {fs : Fields} {name : String} {t : FieldType} {p : Path fs t} :
    find? fs [name] = some ⟨t, p⟩ ↔ ∃ a, fs.find? name = some ⟨t, a⟩ ∧ p = .field a := by
  rw [find?, Option.map_eq_some_iff]
  constructor
  · rintro ⟨⟨u, a⟩, ha, heq⟩
    cases heq
    exact ⟨a, ha, rfl⟩
  · rintro ⟨a, ha, rfl⟩
    exact ⟨⟨t, a⟩, ha, rfl⟩

/-- More names lead on from the message that the first of them refers to. -/
theorem find?_cons {fs : Fields} {name : String} {names : List String} (hnames : names ≠ [])
    {t : FieldType} {p : Path fs t} :
    find? fs (name :: names) = some ⟨t, p⟩ ↔ ∃ n gs, ∃ a : fs.At (.message n gs), ∃ q,
      fs.find? name = some ⟨.message n gs, a⟩ ∧ find? gs names = some ⟨t, q⟩ ∧ p = .into a q := by
  rw [find?]
  · constructor
    · intro h
      rcases ha : fs.find? name with _ | ⟨u | ⟨n, gs⟩ | u, a⟩ <;> rw [ha] at h
      · cases h
      · cases h
      · obtain ⟨⟨u, q⟩, hq, heq⟩ := Option.map_eq_some_iff.1 h
        cases heq
        exact ⟨n, gs, a, q, rfl, hq, rfl⟩
      · cases h
    · rintro ⟨n, gs, a, q, ha, hq, rfl⟩
      simp only [ha, hq, Option.map_some]
  · exact hnames

/-- Names behind those of a message lead to what they lead to from there. -/
theorem find?_append {n : String} {gs : Fields} {names : List String} (hnames : names ≠ [])
    {t : FieldType} : ∀ {before : List String} {fs : Fields} {p : Path fs (.message n gs)},
      find? fs before = some ⟨.message n gs, p⟩ → ∀ {q : Path fs t},
        find? fs (before ++ names) = some ⟨t, q⟩ ↔
          ∃ rest, find? gs names = some ⟨t, rest⟩ ∧ q = p.andThen rest
  | [], fs, p, h, q => by
    rw [find?] at h
    cases h
  | [name], fs, p, h, q => by
    obtain ⟨a, ha, rfl⟩ := find?_singleton.1 h
    simp only [List.singleton_append, find?_cons hnames, ha, andThen]
    constructor
    · rintro ⟨m, hs, b, rest, heq, hrest, rfl⟩
      cases heq
      exact ⟨rest, hrest, rfl⟩
    · rintro ⟨rest, hrest, rfl⟩
      exact ⟨n, gs, a, rest, rfl, hrest, rfl⟩
  | name :: next :: more, fs, p, h, q => by
    obtain ⟨m, hs, a, p, ha, hp, rfl⟩ := (find?_cons (List.cons_ne_nil next more)).1 h
    rw [List.cons_append, find?_cons (List.append_ne_nil_of_right_ne_nil _ hnames)]
    simp only [ha, andThen]
    constructor
    · rintro ⟨m', hs', b, onward, heq, honward, rfl⟩
      cases heq
      obtain ⟨rest, hrest, rfl⟩ := (find?_append hnames hp).1 honward
      exact ⟨rest, hrest, rfl⟩
    · rintro ⟨rest, hrest, rfl⟩
      exact ⟨m, hs, a, p.andThen rest, rfl, (find?_append hnames hp).2 ⟨rest, hrest, rfl⟩, rfl⟩

theorem get_andThen {n : String} {gs : Fields} {t : FieldType} (q : Path gs t) :
    ∀ {fs : Fields} (p : Path fs (.message n gs)) (r : fs.Record),
      (p.andThen q).get r = Option.elim (p.get r) t.unset q.get
  | _, .field a, r => by
    simp only [andThen, get]
    rcases a.get r with _ | m
    · rfl
    · rfl
  | _, .into a p, r => by
    simp only [andThen, get]
    rcases a.get r with _ | m
    · rfl
    · exact get_andThen q p m

theorem get_set {t : FieldType} : ∀ {fs : Fields} (p : Path fs t) (slot : t.Slot)
    (r : fs.Record), p.get (p.set slot r) = slot
  | _, .field a, slot, r => a.get_set slot r
  | _, .into a p, slot, r => by
    rw [set, get, Fields.At.get_set]
    exact get_set p slot _

/-- What is reached under another name than that of the first field leaves a scalar there alone. -/
theorem fst_set {n : String} {k : ScalarKind} {rest : Fields} {t : FieldType} :
    ∀ {names : List String} {p : Path (.cons n (.scalar k) rest) t},
      find? (.cons n (.scalar k) rest) names = some ⟨t, p⟩ → names ≠ [n] →
      ∀ (slot : t.Slot) (r : (Fields.cons n (.scalar k) rest).Record), (p.set slot r).1 = r.1
  | [], p, h, _, slot, r => by
    rw [find?] at h
    cases h
  | [name], p, h, hne, slot, r => by
    have hname : n ≠ name := fun heq => hne (heq ▸ rfl)
    obtain ⟨a, ha, rfl⟩ := find?_singleton.1 h
    rw [Fields.find?, if_neg hname] at ha
    obtain ⟨⟨u, b⟩, -, heq⟩ := Option.map_eq_some_iff.1 ha
    cases heq
    rfl
  | name :: next :: more, p, h, _, slot, r => by
    obtain ⟨m, gs, a, q, -, -, rfl⟩ := (find?_cons (List.cons_ne_nil next more)).1 h
    cases a with
    | there a => rfl

end Path

/-- A field of a record reads what a field of a message reads to which `lead` leads from the
record, be they set or not. -/
inductive Field.Mirrors {fs gs : Fields} (lead : Option gs.Record → Option fs.Record) :
    Field fs → Field gs → Prop
  | scalar (text text' : String) {k : ScalarKind} {p : Path fs (.scalar k)}
      {q : Path gs (.scalar k)} : (∀ r, r.bind q.get = (lead r).bind p.get) →
      Mirrors lead (.scalar ⟨text, k, p⟩) (.scalar ⟨text', k, q⟩)
  | message (text text' : String) {n : String} {hs : Fields} {p : Path fs (.message n hs)}
      {q : Path gs (.message n hs)} : (∀ r, r.bind q.get = (lead r).bind p.get) →
      Mirrors lead (.message ⟨text, n, hs, p⟩) (.message ⟨text', n, hs, q⟩)

namespace Field.Mirrors

variable {fs gs hs : Fields} {lead : Option gs.Record → Option fs.Record} {f : Field fs}
  {g : Field gs}

theorem refl : ∀ f : Field fs, f.Mirrors id f
  | .scalar ⟨text, _, _⟩ => .scalar text text fun _ => rfl
  | .message ⟨text, _, _, _⟩ => .message text text fun _ => rfl

theorem trans {lead' : Option hs.Record → Option gs.Record} {h : Field hs}
    (hf : f.Mirrors lead g) (hg : g.Mirrors lead' h) :
    f.Mirrors (fun r => lead (lead' r)) h := by
  cases hf with
  | scalar text _ hp =>
    cases hg with
    | scalar _ text' hq => exact .scalar text text' fun r => (hq r).trans (hp _)
  | message text _ hp =>
    cases hg with
    | message _ text' hq => exact .message text text' fun r => (hq r).trans (hp _)

theorem any_isSet (h : f.Mirrors lead g) (r : Option gs.Record) :
    r.any g.isSet = (lead r).any f.isSet := by
  have hany : ∀ {α β : Type} (o : Option α) (get : α → Option β),
      (o.any fun a => (get a).isSome) = (o.bind get).isSome := by
    intro α β o get
    cases o <;> rfl
  cases h with
  | scalar text text' h =>
    have hr := congrArg Option.isSome (h r)
    rwa [← hany, ← hany] at hr
  | message text text' h =>
    have hr := congrArg Option.isSome (h r)
    rwa [← hany, ← hany] at hr

end Field.Mirrors

namespace MessageType

variable {m : MessageType} {name : String}

theorem field_scalar {k : ScalarKind} {p : Path m.fields (.scalar k)}
    (h : Path.find? m.fields (Text.split '.' name) = some ⟨.scalar k, p⟩) :
    m.field name = .ok (.scalar ⟨name, k, p⟩) := by
  rw [field, field?, h]

theorem field_message {n : String} {gs : Fields} {p : Path m.fields (.message n gs)}
    (h : Path.find? m.fields (Text.split '.' name) = some ⟨.message n gs, p⟩) :
    m.field name = .ok (.message ⟨name, n, gs, p⟩) := by
  rw [field, field?, h]

/-- What a name refers to is a scalar or a message at the end of the path along its pieces. -/
theorem field_eq_ok {f : Field m.fields} (h : m.field name = .ok f) :
    (∃ k p, Path.find? m.fields (Text.split '.' name) = some ⟨.scalar k, p⟩ ∧
      f = .scalar ⟨name, k, p⟩) ∨
    ∃ n gs p, Path.find? m.fields (Text.split '.' name) = some ⟨.message n gs, p⟩ ∧
      f = .message ⟨name, n, gs, p⟩ := by
  unfold field field? at h
  rcases hfound : Path.find? m.fields (Text.split '.' name) with _ | ⟨k | ⟨n, gs⟩ | t, p⟩
  · rw [hfound] at h
    exact (invalidModel_ne_ok h).elim
  · rw [hfound] at h
    exact .inl ⟨k, p, rfl, (Except.ok.inj h).symm⟩
  · rw [hfound] at h
    exact .inr ⟨n, gs, p, rfl, (Except.ok.inj h).symm⟩
  · rw [hfound] at h
    exact (invalidModel_ne_ok h).elim

/-- A name behind the name of a message refers to what it refers to in the message. -/
theorem field_within {owner : String} {f : MessageField m.fields} {g : Field f.fields}
    (hf : m.field owner = .ok (.message f)) (hg : field ⟨f.name, f.fields⟩ name = .ok g) :
    ∃ h, m.field (owner ++ "." ++ name) = .ok h ∧ g.Mirrors (·.bind f.path.get) h := by
  rcases field_eq_ok hf with ⟨k, p, -, heq⟩ | ⟨n, gs, p, hp, heq⟩
  · cases heq
  cases heq
  rcases field_eq_ok hg with ⟨k, q, hq, rfl⟩ | ⟨n', hs, q, hq, rfl⟩
  · have hfound := (Path.find?_append (Text.split_ne_nil _ _) hp).2 ⟨q, hq, rfl⟩
    rw [← Text.split_dot] at hfound
    refine ⟨_, field_scalar hfound, .scalar _ _ fun r => ?_⟩
    rcases r with _ | r
    · rfl
    · simp only [Option.bind_some, Path.get_andThen]
      rcases p.get r with _ | m
      · rfl
      · rfl
  · have hfound := (Path.find?_append (Text.split_ne_nil _ _) hp).2 ⟨q, hq, rfl⟩
    rw [← Text.split_dot] at hfound
    refine ⟨_, field_message hfound, .message _ _ fun r => ?_⟩
    rcases r with _ | r
    · rfl
    · simp only [Option.bind_some, Path.get_andThen]
      rcases p.get r with _ | m
      · rfl
      · rfl

end MessageType

/-- Writing a field of an event leaves the fingerprint alone, unless it is the fingerprint. -/
theorem Event.fingerprint_put {text : String} {f : ScalarField Schema.event.fields}
    (hf : Schema.event.field text = .ok (.scalar f)) (hne : text ≠ "acting_fingerprint")
    (v : f.kind.Carrier) (e : Event) : fingerprint (f.put v e) = fingerprint e := by
  rcases MessageType.field_eq_ok hf with ⟨k, p, hp, heq⟩ | ⟨n, gs, p, -, heq⟩
  · cases heq
    have hnames : Text.split '.' text ≠ ["acting_fingerprint"] := fun h =>
      hne (Text.split_inj (h.trans (Text.split_of_not_mem (by simp)).symm))
    exact congrArg (Option.getD · 0) (Path.fst_set hp hnames (some v) e)
  · cases heq

end VirtualPeople
