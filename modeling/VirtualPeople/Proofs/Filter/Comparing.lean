import VirtualPeople.Proofs.Filter.Expansion
import VirtualPeople.Proofs.Filter.Templates
import VirtualPeople.Proofs.Number.Extended
import VirtualPeople.Proofs.Record.Lenses

/-!
# Comparisons

A filter that is built compares every field with scalars of the kind that its name leads to
(`FilterSpec.build_sound`). On a field of numbers, the comparisons with one text are built together,
and of a number that the field is set to just one of them holds, the one that the order of numbers
gives (`FilterSpec.build_comparisons`).
-/

namespace VirtualPeople

/-- A field and a literal that it is compared with. -/
structure Comparison where
  fields : Fields
  field : ScalarField fields
  literal : field.kind.Carrier

mutual

/-- The comparisons in a filter, those within messages too. -/
def Filter.comparisons : {fs : Fields} → Filter fs → List Comparison
  | _, .always => []
  | _, .has _ => []
  | _, .equal field literal => [⟨_, field, literal⟩]
  | _, .greater field literal => [⟨_, field, literal⟩]
  | _, .less field literal => [⟨_, field, literal⟩]
  | _, .oneOf field literals => literals.map fun literal => ⟨_, field, literal⟩
  | _, .all parts => parts.comparisons
  | _, .any parts => parts.comparisons
  | _, .not part => part.comparisons
  | _, .within _ parts => parts.comparisons

def Filters.comparisons : {fs : Fields} → Filters fs → List Comparison
  | _, .nil => []
  | _, .cons first rest => first.comparisons ++ rest.comparisons

end

/-- The field is where its name leads, and the literal is read from a text as a scalar of the kind
found there. -/
structure Comparison.Sound (c : Comparison) : Prop where
  leaf : Path.find? c.fields (Text.split '.' c.field.text) =
    some ⟨.scalar c.field.kind, c.field.path⟩
  literal : ∃ text, c.field.kind.parse? text = some c.literal

namespace FilterSpec

section Build

variable {m : MessageType} {name : Option String}

theorem literal_eq_ok {k : ScalarKind} {text : String} {v : k.Carrier} :
    literal k text = .ok v ↔ k.parse? text = some v := by
  unfold literal
  rcases k.parse? text with _ | given
  · exact iff_of_false invalidModel_ne_ok nofun
  · exact pure_eq_ok.trans Option.some_inj.symm

theorem sound_of_scalarField {f : ScalarField m.fields} (hf : scalarField m name = .ok f)
    {text : String} {v : f.kind.Carrier} (hv : literal f.kind text = .ok v) :
    Comparison.Sound ⟨m.fields, f, v⟩ := by
  obtain ⟨written, -, hfield⟩ := field_eq_ok (scalarField_eq_ok.1 hf)
  have htext : f.text = written := by
    obtain ⟨k, p, -, heq⟩ | ⟨n, gs, p, -, heq⟩ := MessageType.field_eq_ok hfield
    · cases heq
      rfl
    · cases heq
  subst htext
  exact ⟨MessageType.find?_of_scalar hfield, text, literal_eq_ok.1 hv⟩

end Build

mutual

theorem build_sound {m : MessageType} : ∀ (spec : FilterSpec) {f : Filter m.fields},
    spec.build m = .ok f → ∀ c ∈ f.comparisons, c.Sound
  | ⟨.invalid, name, value, subFilters⟩, f, h => by
    rw [build] at h
    exact (invalidModel_ne_ok h).elim
  | ⟨.always, name, value, subFilters⟩, f, h => by
    rw [build] at h
    cases h
    exact nofun
  | ⟨.has, name, value, subFilters⟩, f, h => by
    simp only [build, bind_eq_ok, pure_eq_ok] at h
    obtain ⟨field, -, rfl⟩ := h
    exact nofun
  | ⟨.equal, name, value, subFilters⟩, f, h => by
    simp only [build, bind_eq_ok, pure_eq_ok] at h
    obtain ⟨field, hfield, text, -, v, hv, rfl⟩ := h
    exact List.forall_mem_singleton.2 (sound_of_scalarField hfield hv)
  | ⟨.greater, name, value, subFilters⟩, f, h => by
    simp only [build, bind_eq_ok, pure_eq_ok] at h
    obtain ⟨field, hfield, text, -, v, hv, rfl⟩ := h
    exact List.forall_mem_singleton.2 (sound_of_scalarField (numericField_eq_ok.1 hfield).1 hv)
  | ⟨.less, name, value, subFilters⟩, f, h => by
    simp only [build, bind_eq_ok, pure_eq_ok] at h
    obtain ⟨field, hfield, text, -, v, hv, rfl⟩ := h
    exact List.forall_mem_singleton.2 (sound_of_scalarField (numericField_eq_ok.1 hfield).1 hv)
  | ⟨.oneOf, name, value, subFilters⟩, f, h => by
    simp only [build, bind_eq_ok, pure_eq_ok] at h
    obtain ⟨field, hfield, values, -, literals, hliterals, rfl⟩ := h
    refine List.forall_mem_map.2 fun v hv => ?_
    obtain ⟨text, -, htext⟩ := (mem_of_mapM hliterals v).1 hv
    exact sound_of_scalarField hfield htext
  | ⟨.all, name, value, subFilters⟩, f, h => by
    simp only [build, bind_eq_ok, pure_eq_ok] at h
    obtain ⟨parts, hparts, rfl⟩ := h
    exact buildAll_sound subFilters (parts_eq_ok.1 hparts).2
  | ⟨.any, name, value, subFilters⟩, f, h => by
    simp only [build, bind_eq_ok, pure_eq_ok] at h
    obtain ⟨parts, hparts, rfl⟩ := h
    exact buildAll_sound subFilters (parts_eq_ok.1 hparts).2
  | ⟨.not, name, value, subFilters⟩, f, h => by
    simp only [build, bind_eq_ok] at h
    obtain ⟨parts, hparts, h⟩ := h
    have hsound := buildAll_sound subFilters (parts_eq_ok.1 hparts).2
    rcases parts with _ | ⟨part, _ | _⟩
    · exact (invalidModel_ne_ok h).elim
    · cases h
      intro c hc
      exact hsound c (List.mem_append_left _ hc)
    · exact (invalidModel_ne_ok h).elim
  | ⟨.within, name, value, subFilters⟩, f, h => by
    simp only [build, bind_eq_ok, pure_eq_ok] at h
    obtain ⟨field, -, parts, hparts, rfl⟩ := h
    exact buildAll_sound (m := ⟨field.name, field.fields⟩) subFilters (parts_eq_ok.1 hparts).2

theorem buildAll_sound {m : MessageType} : ∀ (specs : List FilterSpec) {fs : Filters m.fields},
    buildAll m specs = .ok fs → ∀ c ∈ fs.comparisons, c.Sound
  | [], fs, h => by
    cases h
    exact nofun
  | spec :: rest, fs, h => by
    simp only [buildAll, bind_eq_ok, pure_eq_ok] at h
    obtain ⟨first, hfirst, others, hothers, rfl⟩ := h
    exact List.forall_mem_append.2 ⟨build_sound spec hfirst, buildAll_sound rest hothers⟩

end

end FilterSpec

namespace ScalarKind

/-- What a scalar stands for, if it is a number. -/
def number? : (k : ScalarKind) → k.Carrier → Option Extended
  | int32, v => some ((v.toInt : ℚ) : WithTop ℚ)
  | uint32, v => some ((v.toNat : ℚ) : WithTop ℚ)
  | int64, v => some ((v.toInt : ℚ) : WithTop ℚ)
  | uint64, v => some ((v.toNat : ℚ) : WithTop ℚ)
  | float, v => numberOf? (widen v)
  | double, v => numberOf? v
  | _, _ => none

theorem isSome_number? (k : ScalarKind) (v : k.Carrier) :
    (k.number? v).isSome = (k.isNumeric && k.isNumber v) := by
  cases k with
  | float => exact isSome_numberOf? _
  | double => exact isSome_numberOf? _
  | _ => rfl

variable {k : ScalarKind} {a b : k.Carrier} {m n : Extended}

theorem lt_iff_number (ha : k.number? a = some m) (hb : k.number? b = some n) :
    k.lt a b = true ↔ m < n := by
  cases k with
  | float => exact decide_eq_true_iff.trans (numberOf?_lt_iff ha hb).symm
  | double => exact decide_eq_true_iff.trans (numberOf?_lt_iff ha hb).symm
  | int32 =>
    cases ha
    cases hb
    simp [lt, Int32.lt_iff_toInt_lt]
  | uint32 =>
    cases ha
    cases hb
    simp [lt, UInt32.lt_iff_toNat_lt]
  | int64 =>
    cases ha
    cases hb
    simp [lt, Int64.lt_iff_toInt_lt]
  | uint64 =>
    cases ha
    cases hb
    simp [lt, UInt64.lt_iff_toNat_lt]
  | bool => cases ha
  | gender => cases ha
  | string => cases ha

theorem beq_iff_number (ha : k.number? a = some m) (hb : k.number? b = some n) :
    k.beq a b = true ↔ m = n := by
  cases k with
  | float => exact (numberOf?_eq_iff ha hb).symm
  | double => exact (numberOf?_eq_iff ha hb).symm
  | int32 =>
    cases ha
    cases hb
    simp [beq, Int32.toInt_inj]
  | uint32 =>
    cases ha
    cases hb
    simp [beq, UInt32.toNat_inj]
  | int64 =>
    cases ha
    cases hb
    simp [beq, Int64.toInt_inj]
  | uint64 =>
    cases ha
    cases hb
    simp [beq, UInt64.toNat_inj]
  | bool => cases ha
  | gender => cases ha
  | string => cases ha

end ScalarKind

/-- Three filters on a field of numbers, of which none holds where the field is unset, and just one
holds of a number that it is set to, by where the number stands to a given one. -/
structure Filter.Partition {fs : Fields} (field : ScalarField fs) (n : Extended)
    (equal greater less : Filter fs) : Prop where
  unset : ∀ r, r.bind field.get = none →
    [equal, greater, less].countP (·.holdsOf r) = 0
  set : ∀ r v, r.bind field.get = some v → field.kind.isNumber v →
    [equal, greater, less].countP (·.holdsOf r) = 1 ∧
      ∃ given, field.kind.number? v = some given ∧ (equal.holdsOf r ↔ given = n) ∧
        (greater.holdsOf r ↔ n < given) ∧ (less.holdsOf r ↔ given < n)

theorem Filter.partition {fs : Fields} {field : ScalarField fs} {literal : field.kind.Carrier}
    {n : Extended} (hnumeric : field.kind.isNumeric) (hn : field.kind.number? literal = some n) :
    Partition field n (.equal field literal) (.greater field literal) (.less field literal) := by
  constructor
  · intro r hr
    simp [holdsOf, hr]
  · intro r v hr hv
    obtain ⟨given, hgiven⟩ : ∃ given, field.kind.number? v = some given := by
      rw [← Option.isSome_iff_exists, ScalarKind.isSome_number?, hnumeric, hv]
      rfl
    have hequal : (Filter.equal field literal).holdsOf r ↔ given = n := by
      rw [holdsOf, hr, Option.any_some, ScalarKind.beq_iff_number hgiven hn]
    have hgreater : (Filter.greater field literal).holdsOf r ↔ n < given := by
      rw [holdsOf, hr, Option.any_some, ScalarKind.lt_iff_number hn hgiven]
    have hless : (Filter.less field literal).holdsOf r ↔ given < n := by
      rw [holdsOf, hr, Option.any_some, ScalarKind.lt_iff_number hgiven hn]
    refine ⟨?_, given, hgiven, hequal, hgreater, hless⟩
    rw [List.countP_cons, List.countP_cons, List.countP_cons, List.countP_nil]
    simp only [hequal, hgreater, hless]
    obtain hlt | heq | hgt := lt_trichotomy given n
    · simp [hlt, hlt.ne, hlt.asymm]
    · simp [heq]
    · simp [hgt, hgt.ne', hgt.asymm]

namespace FilterSpec

/-- A literal that can be read for a field of numbers makes a filter with each comparison. -/
theorem build_numeric {m : MessageType} {name text : String} (subFilters : List FilterSpec)
    {field : ScalarField m.fields} {literal : field.kind.Carrier}
    (hfield : m.field name = .ok (.scalar field)) (hnumeric : field.kind.isNumeric)
    (hliteral : field.kind.parse? text = some literal) :
    build m ⟨.equal, some name, some text, subFilters⟩ = .ok (.equal field literal) ∧
      build m ⟨.greater, some name, some text, subFilters⟩ = .ok (.greater field literal) ∧
      build m ⟨.less, some name, some text, subFilters⟩ = .ok (.less field literal) := by
  have hscalar : scalarField m (some name) = .ok field := scalarField_eq_ok.2 hfield
  have hnumber : numericField m (some name) = .ok field :=
    numericField_eq_ok.2 ⟨hscalar, hnumeric⟩
  have hread := literal_eq_ok.2 hliteral
  simp only [build, bind_eq_ok, pure_eq_ok]
  exact ⟨⟨field, hscalar, text, rfl, literal, hread, rfl⟩,
    ⟨field, hnumber, text, rfl, literal, hread, rfl⟩,
    ⟨field, hnumber, text, rfl, literal, hread, rfl⟩⟩

/-- No comparison in a filter that is built is between kinds. So the comparisons of a field of
numbers with a text that is a number are built together, and they part the numbers that the field is
set to. -/
theorem build_comparisons :
    (∀ (m : MessageType) (spec : FilterSpec) (f : Filter m.fields), spec.build m = .ok f →
      ∀ c ∈ f.comparisons, c.Sound) ∧
    ∀ (m : MessageType) (name text : String) (subFilters : List FilterSpec)
      (field : ScalarField m.fields) (literal : field.kind.Carrier),
      m.field name = .ok (.scalar field) → field.kind.isNumeric →
      field.kind.parse? text = some literal → field.kind.isNumber literal →
      ∃ n equal greater less, field.kind.number? literal = some n ∧
        build m ⟨.equal, some name, some text, subFilters⟩ = .ok equal ∧
        build m ⟨.greater, some name, some text, subFilters⟩ = .ok greater ∧
        build m ⟨.less, some name, some text, subFilters⟩ = .ok less ∧
        Filter.Partition field n equal greater less := by
  refine ⟨fun m spec f h => build_sound spec h, ?_⟩
  intro m name text subFilters field literal hfield hnumeric hliteral hnumber
  obtain ⟨hequal, hgreater, hless⟩ :=
    build_numeric subFilters hfield hnumeric hliteral
  obtain ⟨n, hn⟩ : ∃ n, field.kind.number? literal = some n := by
    rw [← Option.isSome_iff_exists, ScalarKind.isSome_number?, hnumeric, hnumber]
    rfl
  exact ⟨n, _, _, _, hn, hequal, hgreater, hless, Filter.partition hnumeric hn⟩

/-- An index below -5 and, in the id of the event, a fingerprint above `2 ^ 63`. -/
def lowIndexAndHighPrint : FilterSpec :=
  ⟨.all, none, none, [⟨.less, some "multiplicity_person_index", some "-5", []⟩,
    ⟨.within, some "labeler_input.event_id", none,
      [⟨.greater, some "id_fingerprint", some "9223372036854775808", []⟩]⟩]⟩

/-- A comparison of the acting fingerprint with `2 ^ 63`. -/
def ofPrint (op : FilterOp) : FilterSpec :=
  ⟨op, some "acting_fingerprint", some "9223372036854775808", []⟩

def highPrinted : Event := Event.withFingerprint 9223372036854775809 Event.empty

theorem build_comparisons_highPrinted :
    (∃ f, lowIndexAndHighPrint.build Schema.event = .ok f ∧ f.comparisons.length = 2 ∧
      ∀ c ∈ f.comparisons, c.Sound) ∧
    ∃ equal greater less : Filter Schema.event.fields,
      (ofPrint .equal).build Schema.event = .ok equal ∧
      (ofPrint .greater).build Schema.event = .ok greater ∧
      (ofPrint .less).build Schema.event = .ok less ∧
      [equal, greater, less].countP (·.holds highPrinted) = 1 ∧ greater.holds highPrinted := by
  obtain ⟨hsound, hnumbers⟩ := build_comparisons
  constructor
  · obtain ⟨f, hf⟩ : ∃ f, lowIndexAndHighPrint.build Schema.event = .ok f := ⟨_, rfl⟩
    refine ⟨f, hf, ?_, hsound Schema.event lowIndexAndHighPrint f hf⟩
    cases hf
    rfl
  · obtain ⟨n, equal, greater, less, hn, hequal, hgreater, hless, hpart⟩ :=
      hnumbers Schema.event "acting_fingerprint" "9223372036854775808" []
        ⟨_, .uint64, .field .here⟩ 9223372036854775808 rfl rfl (by decide +kernel) rfl
    obtain ⟨hone, given, hgiven, -, habove, -⟩ :=
      hpart.set (some highPrinted) 9223372036854775809 rfl rfl
    refine ⟨equal, greater, less, hequal, hgreater, hless, hone, habove.2 ?_⟩
    rw [← ScalarKind.lt_iff_number hn hgiven]
    decide

end FilterSpec

end VirtualPeople
