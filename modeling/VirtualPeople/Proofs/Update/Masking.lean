import VirtualPeople.Proofs.Outcome
import VirtualPeople.Proofs.Record.Addressing
import VirtualPeople.Proofs.Record.Codec
import VirtualPeople.Update.Columns
import Mathlib.Data.List.Nodup

/-!
# The table of a mask is exact

Two events have one masked text just when they agree on every masked field (`maskedText_eq_iff`):
the canonical text of a field tells what the field holds, and the fields differ in their paths. So,
as long as no two of the texts have one fingerprint, a table is built just if its columns differ in
the masked fields, and it finds the column that agrees with an event (`MaskTable.build_and_find`).
-/

namespace VirtualPeople

theorem Fields.At.slotFinite_get : ∀ {fs : Fields} {t : FieldType} (a : fs.At t) {r : fs.Record},
    fs.finite r → t.slotFinite (a.get r)
  | _, _, .here, (_, _), h => (Bool.and_eq_true_iff.1 h).1
  | _, _, .there a, (_, _), h => a.slotFinite_get (Bool.and_eq_true_iff.1 h).2

theorem FieldType.slotFinite_unset : ∀ t : FieldType, t.slotFinite t.unset
  | .scalar _ => rfl
  | .message _ _ => rfl
  | .list _ => rfl

theorem Path.slotFinite_get : ∀ {fs : Fields} {t : FieldType} (p : Path fs t) {r : fs.Record},
    fs.finite r → t.slotFinite (p.get r)
  | _, _, .field a, _, h => a.slotFinite_get h
  | _, t, .into a p, r, h => by
    have hslot := a.slotFinite_get h
    rw [Path.get]
    rcases hget : a.get r with _ | m
    · exact t.slotFinite_unset
    · rw [hget] at hslot
      exact p.slotFinite_get hslot

namespace Field

variable {fs : Fields}

/-- Both records have nothing in a field, or the same. -/
def Agrees (f : Field fs) (a b : fs.Record) : Prop :=
  match f with
  | .scalar f => f.get a = f.get b
  | .message f => f.path.get a = f.path.get b

/-- Whether JSON has a number for every scalar in a field. -/
def finite (f : Field fs) (r : fs.Record) : Bool :=
  match f with
  | .scalar f => (FieldType.scalar f.kind).slotFinite (f.get r)
  | .message f => (FieldType.message f.name f.fields).slotFinite (f.path.get r)

theorem finite_of_record {f : Field fs} {r : fs.Record} (h : fs.finite r) : f.finite r :=
  match f with
  | .scalar f => f.path.slotFinite_get h
  | .message f => f.path.slotFinite_get h

end Field

namespace Value

theorem toJson_of {k : ScalarKind} (hk : k ≠ .gender) (a : k.Carrier) :
    (of k a).toJson = k.toJson a := by
  cases k with
  | gender => exact absurd rfl hk
  | _ => rfl

theorem canonical_toJson (v : Value) : v.toJson.canonical = v.toJson := by
  cases v with
  | int32 v => exact ScalarKind.canonical_toJson .int32 v
  | uint32 v => exact ScalarKind.canonical_toJson .uint32 v
  | int64 v => exact ScalarKind.canonical_toJson .int64 v
  | uint64 v => exact ScalarKind.canonical_toJson .uint64 v
  | float v => exact ScalarKind.canonical_toJson .float v
  | double v => exact ScalarKind.canonical_toJson .double v
  | bool v => exact ScalarKind.canonical_toJson .bool v
  | enum n => exact Json.canonical_ofInt n.toInt
  | string v => exact ScalarKind.canonical_toJson .string v

/-- A scalar is told by its JSON where an enumerated value is its number, too. -/
theorem toJson_inj {k : ScalarKind} {a b : k.Carrier} (ha : k.isFinite a) (hb : k.isFinite b)
    (h : (of k a).toJson = (of k b).toJson) : a = b := by
  by_cases hk : k = .gender
  · subst hk
    have hnumber := Json.ofInt_inj (ScalarKind.fits_int32 _) (ScalarKind.fits_int32 _) h
    cases a <;> cases b <;> first | rfl | exact absurd hnumber (by decide)
  · rw [toJson_of hk, toJson_of hk] at h
    exact k.toJson_inj ha hb h

theorem toJson_ne_null {k : ScalarKind} {a : k.Carrier} (ha : k.isFinite a) :
    (of k a).toJson ≠ .null := by
  have hint : ∀ {i : Int}, -9223372036854775808 ≤ i ∧ i < 18446744073709551616 →
      Json.ofInt i ≠ .null := by
    intro i hi h
    rw [Json.ofInt, dif_pos hi] at h
    cases h
  have hfloat : ∀ {x : Float}, VirtualPeople.isFinite x → Json.ofFloat x ≠ .null := by
    intro x hx h
    rw [Json.ofFloat, dif_pos hx] at h
    cases h
  cases k with
  | int32 => exact hint (ScalarKind.fits_int32 a)
  | uint32 => exact hint (i := a.toNat) (ScalarKind.fits_nat (a.toNat_lt.trans (by decide)))
  | int64 => exact hint (ScalarKind.fits_int64 a)
  | uint64 => exact hint (i := a.toNat) (ScalarKind.fits_nat a.toNat_lt)
  | float => exact hfloat ha
  | double => exact hfloat ha
  | gender => exact hint (ScalarKind.fits_int32 _)
  | bool =>
    intro h
    cases h
  | string =>
    intro h
    cases h

/-- A scalar that may be unset is told by its JSON, null standing for unset. -/
theorem slotJson_inj {k : ScalarKind} : ∀ {a b : Option k.Carrier}, Option.all k.isFinite a →
    Option.all k.isFinite b →
    (((a.map (of k)).map toJson).getD .null).canonical =
      (((b.map (of k)).map toJson).getD .null).canonical → a = b
  | none, none, _, _, _ => rfl
  | none, some b, _, hb, h => by
    refine absurd ?_ (toJson_ne_null hb)
    rw [← canonical_toJson]
    exact h.symm
  | some a, none, ha, _, h => by
    refine absurd ?_ (toJson_ne_null ha)
    rw [← canonical_toJson]
    exact h
  | some a, some b, ha, hb, h => by
    refine congrArg some (toJson_inj ha hb ?_)
    rw [← canonical_toJson, ← canonical_toJson (of k b)]
    exact h

end Value

/-- A message that may be unset is told by its JSON, null standing for unset. -/
theorem Fields.slotJson_inj {fs : Fields} (hd : fs.distinct) : ∀ {a b : Option fs.Record},
    Option.all fs.finite a → Option.all fs.finite b →
    ((a.map fs.toJson).getD .null).canonical = ((b.map fs.toJson).getD .null).canonical → a = b
  | none, none, _, _, _ => rfl
  | none, some _, _, _, h => by cases h
  | some _, none, _, _, h => by cases h
  | some _, some _, ha, hb, h => congrArg some (members_inj hd ha hb (Json.perm_of_canonical_eq h))

namespace Field

variable {fs : Fields}

theorem json_eq_of_agrees : ∀ {f : Field fs} {a b : fs.Record}, f.Agrees a b → f.json a = f.json b
  | .scalar f, a, b, h => by
    rw [json, json, ScalarField.get?, ScalarField.get?, show f.get a = f.get b from h]
  | .message f, a, b, h => by
    rw [json, json, show f.path.get a = f.path.get b from h]

/-- What a field holds is told by its JSON. -/
theorem agrees_of_json_eq (hd : fs.distinct) : ∀ {f : Field fs} {a b : fs.Record}, f.finite a →
    f.finite b → (f.json a).canonical = (f.json b).canonical → f.Agrees a b
  | .scalar _, _, _, ha, hb, h => Value.slotJson_inj ha hb h
  | .message f, _, _, ha, hb, h => Fields.slotJson_inj (f.path.distinct_type hd) ha hb h

end Field

/-! ## Masked texts -/

namespace MaskTable

variable {fields : List (Field Schema.event.fields)}

/-- The masked text of an event. -/
def maskedText (fields : List (Field Schema.event.fields)) (e : Event) : String :=
  (masked fields e).canonicalText

/-- Of fields that differ in their paths, the masked text tells what each holds. -/
theorem maskedText_eq_iff (hnames : (fields.map Field.text).Nodup) {a b : Event}
    (ha : ∀ f ∈ fields, f.finite a) (hb : ∀ f ∈ fields, f.finite b) :
    maskedText fields a = maskedText fields b ↔ ∀ f ∈ fields, f.Agrees a b := by
  constructor
  · intro h f hf
    have hperm := Json.perm_of_canonical_eq (Json.canonical_eq_of_canonicalText_eq h)
    rw [Json.canonicalMembers_eq_map, Json.canonicalMembers_eq_map, List.map_map, List.map_map]
      at hperm
    obtain ⟨g, hg, hmember⟩ := List.mem_map.1 (hperm.subset (List.mem_map.2 ⟨f, hf, rfl⟩))
    obtain ⟨htext, hjson⟩ := Prod.mk.inj hmember
    obtain rfl := List.inj_on_of_nodup_map hnames hg hf htext
    exact Field.agrees_of_json_eq event_distinct (ha g hg) (hb g hg) hjson.symm
  · intro h
    have hmembers : fields.map (fun f => (f.text, f.json a)) =
        fields.map fun f => (f.text, f.json b) :=
      List.map_congr_left fun f hf => by rw [Field.json_eq_of_agrees (h f hf)]
    rw [maskedText, masked, hmembers]
    rfl

theorem nodup_distinct : ∀ fields : List (Field Schema.event.fields),
    ((distinct fields).map Field.text).Nodup
  | [] => List.nodup_nil
  | f :: rest => by
    refine List.nodup_cons.2 ⟨?_, ?_⟩
    · simp
    · exact ((List.filter_sublist).map Field.text).nodup (nodup_distinct rest)

/-- No field is lost if the fields are the same wherever the paths are. -/
theorem mem_distinct : ∀ {fields : List (Field Schema.event.fields)},
    (∀ f ∈ fields, ∀ g ∈ fields, f.text = g.text → f = g) → ∀ f, f ∈ distinct fields ↔ f ∈ fields
  | [], _, _ => Iff.rfl
  | g :: rest, hsame, f => by
    have ih := mem_distinct (fun f hf g hg => hsame f (List.mem_cons_of_mem _ hf) g
      (List.mem_cons_of_mem _ hg)) f
    rw [distinct, List.mem_cons, List.mem_cons, List.mem_filter, ih]
    constructor
    · rintro (rfl | ⟨hf, -⟩)
      · exact .inl rfl
      · exact .inr hf
    · rintro (rfl | hf)
      · exact .inl rfl
      · by_cases htext : f.text = g.text
        · exact .inl (hsame f (List.mem_cons_of_mem _ hf) g List.mem_cons_self htext)
        · exact .inr ⟨hf, by simpa using htext⟩

theorem lookup_cons_eq_none {k k' : UInt64} {v : Nat} {l : List (UInt64 × Nat)} :
    ((k', v) :: l).lookup k = none ↔ k ≠ k' ∧ l.lookup k = none := by
  simp [List.lookup_eq_none_iff]

/-- A table is filled just if no fingerprint is repeated, with the fingerprints in order. -/
theorem fill_eq_ok : ∀ {columns : List Event} {seen table : List (UInt64 × Nat)},
    fill fields seen columns = .ok table ↔
      (∀ c ∈ columns, seen.lookup (maskedFingerprint fields c) = none) ∧
        (columns.map (maskedFingerprint fields)).Nodup ∧
        table = seen.reverse ++ (columns.map (maskedFingerprint fields)).zipIdx seen.length
  | [], seen, table => by
    rw [fill, pure_eq_ok, List.map_nil, List.zipIdx_nil, List.append_nil, eq_comm]
    simp
  | c :: rest, seen, table => by
    unfold fill
    simp only
    split
    · rename_i hseen
      refine ⟨fun h => (invalidModel_ne_ok h).elim, fun h => ?_⟩
      rw [h.1 c List.mem_cons_self] at hseen
      cases hseen
    · rename_i hnew
      rw [fill_eq_ok, List.map_cons, List.nodup_cons, List.zipIdx_cons, List.reverse_cons,
        List.append_assoc, List.singleton_append, List.length_cons]
      simp only [lookup_cons_eq_none, List.mem_map, List.forall_mem_cons, hnew, true_and]
      constructor
      · rintro ⟨hothers, hnodup, rfl⟩
        exact ⟨fun d hd => (hothers d hd).2,
          ⟨fun ⟨d, hd, heq⟩ => (hothers d hd).1 heq, hnodup⟩, rfl⟩
      · rintro ⟨hothers, ⟨hrepeated, hnodup⟩, rfl⟩
        exact ⟨fun d hd => ⟨fun heq => hrepeated ⟨d, hd, heq⟩, hothers d hd⟩, hnodup, rfl⟩

theorem lookup_zipIdx {hashes : List UInt64} (hnodup : hashes.Nodup) {hash : UInt64} {i : Nat} :
    hashes.zipIdx.lookup hash = some i ↔ hashes[i]? = some hash := by
  rw [← List.mk_mem_zipIdx_iff_getElem?, List.lookup_eq_some_iff]
  constructor
  · rintro ⟨before, after, hsplit, -⟩
    rw [hsplit]
    exact List.mem_append_right before List.mem_cons_self
  · intro h
    obtain ⟨before, after, hsplit⟩ := List.append_of_mem h
    have hkeys : (hashes.zipIdx.map Prod.fst).Nodup := by rwa [List.zipIdx_map_fst]
    rw [hsplit, List.map_append, List.map_cons, List.nodup_middle, List.nodup_cons] at hkeys
    refine ⟨before, after, hsplit, fun p hp => bne_iff_ne.2 fun heq => hkeys.1 ?_⟩
    rw [heq]
    exact List.mem_append_left _ (List.mem_map.2 ⟨p, hp, rfl⟩)

end MaskTable

namespace FieldMask

/-- Two events agree on every path of a mask that leads to a field. -/
def Agrees (mask : FieldMask) (a b : Event) : Prop :=
  ∀ text ∈ mask.paths, ∀ f, Schema.event.field text = .ok f → f.Agrees a b

/-- Whether JSON has a number for every scalar that the mask names. -/
def Finite (mask : FieldMask) (e : Event) : Prop :=
  ∀ text ∈ mask.paths, ∀ f, Schema.event.field text = .ok f → f.finite e

/-- No two different masked texts of the events have one fingerprint. -/
def Collisionless (mask : FieldMask) (events : List Event) : Prop :=
  ∀ fields, mask.paths.mapM Schema.event.field = .ok fields → ∀ a ∈ events, ∀ b ∈ events,
    fingerprint (MaskTable.maskedText (MaskTable.distinct fields) a) =
      fingerprint (MaskTable.maskedText (MaskTable.distinct fields) b) →
    MaskTable.maskedText (MaskTable.distinct fields) a =
      MaskTable.maskedText (MaskTable.distinct fields) b

end FieldMask

namespace MaskTable

variable {columns : List Event} {mask : FieldMask} {fields : List (Field Schema.event.fields)}

theorem text_of_field {text : String} {f : Field Schema.event.fields}
    (h : Schema.event.field text = .ok f) : f.text = text := by
  unfold MessageType.field at h
  split at h
  · rename_i g hg
    cases h
    unfold MessageType.field? at hg
    split at hg
    · cases hg
      rfl
    · cases hg
      rfl
    · cases hg
  · exact (invalidModel_ne_ok h).elim

/-- The fields that a mask leads to, each once. -/
theorem mem_distinct_iff (h : mask.paths.mapM Schema.event.field = .ok fields)
    (f : Field Schema.event.fields) :
    f ∈ distinct fields ↔ ∃ text ∈ mask.paths, Schema.event.field text = .ok f := by
  have hmem := mem_of_mapM h
  have hsame : ∀ f ∈ fields, ∀ g ∈ fields, f.text = g.text → f = g := by
    intro f hf g hg htext
    obtain ⟨text, -, hfield⟩ := (hmem f).1 hf
    obtain ⟨text', -, hfield'⟩ := (hmem g).1 hg
    rw [text_of_field hfield, text_of_field hfield'] at htext
    rw [htext, hfield'] at hfield
    exact (Except.ok.inj hfield).symm
  rw [mem_distinct hsame, hmem]

/-- Without collisions, fingerprints tell whether events agree. -/
theorem maskedFingerprint_eq_iff (h : mask.paths.mapM Schema.event.field = .ok fields)
    {events : List Event} (hcollision : mask.Collisionless events) {a b : Event} (ha : a ∈ events)
    (hb : b ∈ events) (hfa : mask.Finite a) (hfb : mask.Finite b) :
    maskedFingerprint (distinct fields) a = maskedFingerprint (distinct fields) b ↔
      mask.Agrees a b := by
  have hmem := mem_distinct_iff h
  have hfinite : ∀ {e : Event}, mask.Finite e → ∀ f ∈ distinct fields, f.finite e := by
    intro e he f hf
    obtain ⟨text, htext, hfield⟩ := (hmem f).1 hf
    exact he text htext f hfield
  have htexts : maskedText (distinct fields) a = maskedText (distinct fields) b ↔
      mask.Agrees a b := by
    rw [maskedText_eq_iff (nodup_distinct fields) (hfinite hfa) (hfinite hfb)]
    exact ⟨fun hagree text htext f hf => hagree f ((hmem f).2 ⟨text, htext, hf⟩),
      fun hagree f hf => (hmem f).1 hf |>.elim fun text htext => hagree text htext.1 f htext.2⟩
  rw [← htexts]
  exact ⟨hcollision fields h a ha b hb, congrArg fingerprint⟩

theorem build_eq_ok {t : MaskTable} : build columns mask = .ok t ↔
    columns ≠ [] ∧ mask.paths ≠ [] ∧ ∃ fields, mask.paths.mapM Schema.event.field = .ok fields ∧
      (columns.map (maskedFingerprint (distinct fields))).Nodup ∧
      t = ⟨distinct fields, (columns.map (maskedFingerprint (distinct fields))).zipIdx⟩ := by
  unfold build
  rcases columns with _ | ⟨c, rest⟩
  · simp
  · rcases hpaths : mask.paths with _ | ⟨path, paths⟩
    · simp
    · simp only [List.isEmpty_cons, Bool.false_eq_true, if_false, bind_eq_ok, pure_eq_ok,
        fill_eq_ok, ne_eq, List.cons_ne_nil, not_false_eq_true, true_and, List.lookup_nil,
        implies_true]
      constructor
      · rintro ⟨fields, hfields, table, ⟨hnodup, rfl⟩, rfl⟩
        exact ⟨fields, hfields, hnodup, rfl⟩
      · rintro ⟨fields, hfields, hnodup, rfl⟩
        exact ⟨fields, hfields, _, ⟨hnodup, rfl⟩, rfl⟩

theorem find_eq_some_iff {t : MaskTable} (hbuild : build columns mask = .ok t) {e : Event}
    (hcollision : mask.Collisionless (e :: columns)) (hfinite : ∀ c ∈ columns, mask.Finite c)
    (hfe : mask.Finite e) (i : Nat) :
    t.find? e = some i ↔ ∃ c, columns[i]? = some c ∧ mask.Agrees c e := by
  obtain ⟨-, -, fields, hfields, hnodup, rfl⟩ := build_eq_ok.1 hbuild
  unfold find?
  rw [lookup_zipIdx hnodup]
  have hsame : ∀ c ∈ columns, maskedFingerprint (distinct fields) c =
      maskedFingerprint (distinct fields) e ↔ mask.Agrees c e := fun c hc =>
    maskedFingerprint_eq_iff hfields hcollision (List.mem_cons_of_mem e hc) List.mem_cons_self
      (hfinite c hc) hfe
  simp only [List.getElem?_map, Option.map_eq_some_iff]
  constructor
  · rintro ⟨c, hc, heq⟩
    exact ⟨c, hc, (hsame c (List.mem_of_getElem? hc)).1 heq⟩
  · rintro ⟨c, hc, hagree⟩
    exact ⟨c, hc, (hsame c (List.mem_of_getElem? hc)).2 hagree⟩

/-- A table is built just from columns that differ pairwise on a mask whose paths lead to fields. -/
theorem exists_build_iff (hcollision : mask.Collisionless columns)
    (hfinite : ∀ c ∈ columns, mask.Finite c) :
    (∃ t, build columns mask = .ok t) ↔ columns ≠ [] ∧ mask.paths ≠ [] ∧
      (∀ text ∈ mask.paths, ∃ f, Schema.event.field text = .ok f) ∧
      columns.Pairwise fun a b => ¬ mask.Agrees a b := by
  have hnodup : ∀ {fields}, mask.paths.mapM Schema.event.field = .ok fields →
      ((columns.map (maskedFingerprint (distinct fields))).Nodup ↔
        columns.Pairwise fun a b => ¬ mask.Agrees a b) := by
    intro fields hfields
    rw [List.Nodup, List.pairwise_map]
    refine List.Pairwise.iff_of_mem fun ha hb => not_congr ?_
    exact maskedFingerprint_eq_iff hfields hcollision ha hb (hfinite _ ha) (hfinite _ hb)
  simp only [build_eq_ok, ← exists_mapM_iff]
  constructor
  · rintro ⟨t, hcolumns, hpaths, fields, hfields, hdiffer, rfl⟩
    exact ⟨hcolumns, hpaths, ⟨fields, hfields⟩, (hnodup hfields).1 hdiffer⟩
  · rintro ⟨hcolumns, hpaths, ⟨fields, hfields⟩, hdiffer⟩
    exact ⟨_, hcolumns, hpaths, fields, hfields, (hnodup hfields).2 hdiffer, rfl⟩

/-- As long as no two masked texts have one fingerprint, a table is built just from columns that
differ pairwise on the mask, and it finds the column that agrees with an event on the mask. -/
theorem build_and_find (hfinite : ∀ c ∈ columns, Schema.event.fields.finite c)
    (hcollision : mask.Collisionless columns) :
    ((∃ t, build columns mask = .ok t) ↔ columns ≠ [] ∧ mask.paths ≠ [] ∧
      (∀ text ∈ mask.paths, ∃ f, Schema.event.field text = .ok f) ∧
      columns.Pairwise fun a b => ¬ mask.Agrees a b) ∧
    ∀ t, build columns mask = .ok t → ∀ e : Event, Schema.event.fields.finite e →
      mask.Collisionless (e :: columns) →
      (∀ i, t.find? e = some i ↔ ∃ c, columns[i]? = some c ∧ mask.Agrees c e) ∧
      (t.find? e = none ↔ ∀ c ∈ columns, ¬ mask.Agrees c e) := by
  have hmasked : ∀ {e : Event}, Schema.event.fields.finite e → mask.Finite e :=
    fun he text htext f hf => Field.finite_of_record he
  refine ⟨exists_build_iff hcollision fun c hc => hmasked (hfinite c hc), ?_⟩
  intro t hbuild e he hcollision'
  have hfind := find_eq_some_iff hbuild hcollision' (fun c hc => hmasked (hfinite c hc))
    (hmasked he)
  refine ⟨hfind, ?_⟩
  rw [Option.eq_none_iff_forall_ne_some]
  simp only [ne_eq, hfind]
  constructor
  · intro hnone c hc hagree
    obtain ⟨i, hi⟩ := List.mem_iff_getElem?.1 hc
    exact hnone i ⟨c, hi, hagree⟩
  · rintro hnone i ⟨c, hc, hagree⟩
    exact hnone c (List.mem_of_getElem? hc) hagree

/-- The field of the country code. -/
def countryField : ScalarField Schema.event.fields :=
  ⟨"person_country_code", .string, .field (.there .here)⟩

def country (e : Event) : Option String := countryField.get e

def fromCountry (code : String) : Event := countryField.put code Event.empty

/-- Two columns that a mask of the country code tells apart. -/
def countries : List Event := [fromCountry "DE", fromCountry "FR"]

def byCountry : FieldMask := ⟨["person_country_code"]⟩

theorem agrees_byCountry {a b : Event} :
    byCountry.Agrees a b ↔ country a = country b := by
  have hfield : Schema.event.field "person_country_code" = .ok (.scalar countryField) := rfl
  constructor
  · exact fun h => h _ List.mem_cons_self _ hfield
  · intro h text htext f hf
    rw [List.mem_singleton.1 htext, hfield] at hf
    cases hf
    exact h

theorem collisionless_byCountry {events : List Event}
    (h : ∀ a ∈ events, ∀ b ∈ events,
      fingerprint (maskedText [.scalar countryField] a) =
        fingerprint (maskedText [.scalar countryField] b) →
      maskedText [.scalar countryField] a = maskedText [.scalar countryField] b) :
    byCountry.Collisionless events := by
  have hfields : byCountry.paths.mapM Schema.event.field = .ok [.scalar countryField] := rfl
  intro fields hmap
  rw [hfields] at hmap
  cases hmap
  exact h

theorem build_and_find_countries : ∃ t, build countries byCountry = .ok t ∧
    t.find? (Event.withFingerprint 7 (fromCountry "FR")) = some 1 ∧
    t.find? Event.empty = none := by
  obtain ⟨hbuild, hfind⟩ := build_and_find (by decide +kernel : ∀ c ∈ countries, _)
    (collisionless_byCountry (by decide +kernel))
  have hdiffer : countries.Pairwise fun a b => ¬ byCountry.Agrees a b := by
    simp only [agrees_byCountry]
    decide +kernel
  have hresolved : ∀ text ∈ byCountry.paths, ∃ f, Schema.event.field text = .ok f := by
    intro text htext
    rw [List.mem_singleton.1 htext]
    exact ⟨.scalar countryField, rfl⟩
  obtain ⟨t, ht⟩ := hbuild.2 ⟨List.cons_ne_nil _ _, List.cons_ne_nil _ _, hresolved, hdiffer⟩
  refine ⟨t, ht, ?_, ?_⟩
  · refine ((hfind t ht _ (by decide +kernel) (collisionless_byCountry (by decide +kernel))).1 1).2
      ⟨fromCountry "FR", rfl, agrees_byCountry.2 rfl⟩
  · refine (hfind t ht _ (by decide +kernel) (collisionless_byCountry (by decide +kernel))).2.2 ?_
    simp only [agrees_byCountry]
    decide +kernel

end MaskTable

end VirtualPeople
