import VirtualPeople.Event

/-!
# What writing leaves alone

Writing a field changes no field of another type, so a path to a scalar, which starts at a scalar or
a message, never touches a list (`Fields.At.get_set_path`), and a record with a single scalar has
nothing anywhere else (`Path.eq_of_isSome`). Merging appends the lists of the second record to those
of the first.
-/

namespace VirtualPeople

@[simp]
theorem Fields.At.get_set {fs : Fields} {t : FieldType} (a : fs.At t) (slot : t.Slot)
    (r : fs.Record) : a.get (a.set slot r) = slot := by
  induction a with
  | here => rfl
  | there a ih => exact ih slot r.2

/-- Two fields are one field, or writing the second leaves the first alone. -/
theorem Fields.At.eq_or_apart {fs : Fields} {t u : FieldType} (a : fs.At t) (b : fs.At u) :
    (⟨t, a⟩ : (t : FieldType) × fs.At t) = ⟨u, b⟩ ∨
      ∀ (slot : u.Slot) (r : fs.Record), a.get (b.set slot r) = a.get r := by
  induction a with
  | here =>
    cases b with
    | here => exact .inl rfl
    | there b => exact .inr fun _ _ => rfl
  | there a ih =>
    cases b with
    | here => exact .inr fun _ _ => rfl
    | there b =>
      rcases ih b with heq | hapart
      · cases heq
        exact .inl rfl
      · exact .inr fun slot r => hapart slot r.2

theorem Fields.At.get_set_of_ne {fs : Fields} {t u : FieldType} (a : fs.At t) (b : fs.At u)
    (h : t ≠ u) (slot : u.Slot) (r : fs.Record) : a.get (b.set slot r) = a.get r :=
  (a.eq_or_apart b).resolve_left (fun heq => h (congrArg Sigma.fst heq)) slot r

/-- What a field holds after a write depends on nothing but what it held before. -/
theorem Fields.At.get_set_path_congr {fs : Fields} {t u : FieldType} (a : fs.At t) (p : Path fs u)
    (slot : u.Slot) {r s : fs.Record} (h : a.get r = a.get s) :
    a.get (p.set slot r) = a.get (p.set slot s) := by
  cases p with
  | field b =>
    rcases a.eq_or_apart b with heq | hapart
    · cases heq
      rw [Path.set, Path.set, Fields.At.get_set, Fields.At.get_set]
    · rw [Path.set, Path.set, hapart, hapart, h]
  | into b q =>
    rcases a.eq_or_apart b with heq | hapart
    · cases heq
      rw [Path.set, Path.set, Fields.At.get_set, Fields.At.get_set, h]
    · rw [Path.set, Path.set, hapart, hapart, h]

theorem Fields.At.get_set_path {fs : Fields} {t : FieldType} {k : ScalarKind} (a : fs.At (.list t))
    (p : Path fs (.scalar k)) (v : Option k.Carrier) (r : fs.Record) :
    a.get (p.set v r) = a.get r := by
  cases p with
  | field b => exact a.get_set_of_ne b (by simp) v r
  | into b q => exact a.get_set_of_ne b (by simp) _ r

theorem Fields.At.get_merge {fs : Fields} {t : FieldType} (a : fs.At t) (r s : fs.Record) :
    a.get (fs.merge r s) = t.merge (a.get r) (a.get s) := by
  induction a with
  | here => rfl
  | there a ih => exact ih r.2 s.2

theorem Fields.At.get_empty {fs : Fields} {t : FieldType} (a : fs.At t) :
    a.get fs.empty = t.unset := by
  induction a with
  | here => rfl
  | there a ih => exact ih

/-- Of a record with a single field, no other field has anything. -/
theorem Fields.At.eq_of_get_ne {fs : Fields} {t u : FieldType} (a : fs.At t) (b : fs.At u)
    {slot : u.Slot} (h : a.get (b.set slot fs.empty) ≠ t.unset) :
    (⟨t, a⟩ : (t : FieldType) × fs.At t) = ⟨u, b⟩ :=
  (a.eq_or_apart b).resolve_right fun hapart => h ((hapart slot fs.empty).trans a.get_empty)

theorem Path.eq_of_isSome {fs : Fields} {k k' : ScalarKind} (p : Path fs (.scalar k))
    (b : fs.At (.scalar k')) (v : k'.Carrier)
    (h : Option.isSome (p.get (b.set (some v) fs.empty))) :
    (⟨k, p⟩ : (k : ScalarKind) × Path fs (.scalar k)) = ⟨k', .field b⟩ := by
  cases p with
  | field a =>
    have hne : a.get (b.set (some v) fs.empty) ≠ FieldType.unset (.scalar k) :=
      Option.isSome_iff_ne_none.1 h
    cases a.eq_of_get_ne b hne
    rfl
  | into a p =>
    rw [Path.get, a.get_set_of_ne b (by simp), a.get_empty] at h
    cases h

namespace Event

/-- The field of the activities. -/
def activitiesField :
    Schema.event.fields.At (.list (.message Schema.activity.name Schema.activity.fields)) :=
  .there (.there (.there (.there (.there (.there (.there (.there (.there (.there .here)))))))))

@[simp]
theorem activities_withActivities (as : List Activity) (e : Event) :
    activities (withActivities as e) = as := rfl

@[simp]
theorem activities_withFingerprint (f : UInt64) (e : Event) :
    activities (withFingerprint f e) = activities e := rfl

theorem activities_set {k : ScalarKind} (p : Path Schema.event.fields (.scalar k))
    (v : Option k.Carrier) (e : Event) : activities (p.set v e) = activities e :=
  activitiesField.get_set_path p v e

theorem activities_enclose {t : FieldType} (p : Path Schema.event.fields t) (e : Event) :
    activities (p.enclose e) = activities e := by
  cases p with
  | field a => rfl
  | into a p => exact activitiesField.get_set_of_ne a (by simp) _ e

theorem activities_merge (a b : Event) : activities (merge a b) = activities a ++ activities b :=
  activitiesField.get_merge a b

def fingerprintField : ScalarField Schema.event.fields :=
  ⟨"acting_fingerprint", .uint64, .field .here⟩

theorem withFingerprint_of_isSome {e : Event} (h : (actingFingerprint e).isSome) :
    withFingerprint (fingerprint e) e = e := by
  obtain ⟨f, hf⟩ := Option.isSome_iff_exists.1 h
  rcases e with ⟨_, rest⟩
  cases hf
  rfl

theorem actingFingerprint_set {k : ScalarKind} (p : Path Schema.event.fields (.scalar k))
    (v : k.Carrier) {e : Event} (h : (actingFingerprint e).isSome) :
    (actingFingerprint (p.set (some v) e)).isSome := by
  cases p with
  | field a =>
    cases a with
    | here => rfl
    | there a => exact h
  | into a q =>
    cases a with
    | there a => exact h

/-- If an event has a fingerprint after a write, then the write does not show whether the event
had one before. -/
theorem set_withFingerprint {k : ScalarKind} (p : Path Schema.event.fields (.scalar k))
    (v : k.Carrier) {e : Event} (h : (actingFingerprint (p.set (some v) e)).isSome) :
    p.set (some v) (withFingerprint (fingerprint e) e) = p.set (some v) e := by
  cases p with
  | field a =>
    cases a with
    | here => rfl
    | there a =>
      have he : withFingerprint (fingerprint e) e = e := withFingerprint_of_isSome h
      exact congrArg (Path.set (.field (.there a)) (some v)) he
  | into a q =>
    cases a with
    | there a =>
      have he : withFingerprint (fingerprint e) e = e := withFingerprint_of_isSome h
      exact congrArg (Path.set (.into (.there a) q) (some v)) he

/-- The fingerprint after a write depends on nothing but the one before; it is zero if unset. -/
theorem fingerprint_set_congr {k : ScalarKind} (p : Path Schema.event.fields (.scalar k))
    (v : k.Carrier) {a b : Event} (h : fingerprint a = fingerprint b) :
    fingerprint (p.set (some v) a) = fingerprint (p.set (some v) b) := by
  cases p with
  | field c =>
    cases c with
    | here => rfl
    | there c => exact h
  | into c q =>
    cases c with
    | there c => exact h

end Event

end VirtualPeople
