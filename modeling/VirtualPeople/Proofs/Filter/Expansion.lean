import VirtualPeople.Event
import VirtualPeople.Filter.Spec
import VirtualPeople.Proofs.Record.Naming

/-!
# Filters written out

A written filter on the fields of a message is the conjunction of its parts, with the name of the
message before each of their names, and a choice of values is a disjunction of equalities. Writing a
filter out so changes neither whether it is built nor what it holds of (`FilterSpec.build_expand`).
The parts are built on the fields of the message and asked of a message that may be unset, their
expansion is built on the record and asked of it; the induction goes over the written filter for any
fields that are found under other names in a record (`FilterSpec.Renames`).
-/

namespace VirtualPeople

mutual

/-- Neither asks within a message nor for one of several values, at any depth. -/
def Filter.isBasic : {fs : Fields} → Filter fs → Bool
  | _, .always => true
  | _, .has _ => true
  | _, .equal _ _ => true
  | _, .greater _ _ => true
  | _, .less _ _ => true
  | _, .oneOf _ _ => false
  | _, .all parts => parts.areBasic
  | _, .any parts => parts.areBasic
  | _, .not part => part.isBasic
  | _, .within _ _ => false

def Filters.areBasic : {fs : Fields} → Filters fs → Bool
  | _, .nil => true
  | _, .cons first rest => first.isBasic && rest.areBasic

end

namespace FilterSpec

mutual

/-- With another name for every field. -/
def renamed (rename : String → String) : FilterSpec → FilterSpec
  | ⟨op, name, value, subFilters⟩ =>
    ⟨op, name.map rename, value, renamedAll rename subFilters⟩

def renamedAll (rename : String → String) : List FilterSpec → List FilterSpec
  | [] => []
  | spec :: rest => spec.renamed rename :: renamedAll rename rest

end

/-- The conditions that a field is equal to each of the values. -/
def equalities (name : Option String) : (values : List String) → List FilterSpec
  | [] => []
  | value :: rest => ⟨.equal, name, some value, []⟩ :: equalities name rest

mutual

/-- Written out: the filters within a message under the names that their fields have from outside,
and the choice of a value as the values one by one. -/
def expand : FilterSpec → FilterSpec
  | ⟨op, name, value, subFilters⟩ =>
    match op, name, value with
    | .within, some owner, _ =>
      ⟨.all, none, none, renamedAll (fun name => owner ++ "." ++ name) (expandAll subFilters)⟩
    | .oneOf, name, some text => ⟨.any, none, none, equalities name (Text.split ',' text)⟩
    | op, name, value => ⟨op, name, value, expandAll subFilters⟩

def expandAll : List FilterSpec → List FilterSpec
  | [] => []
  | spec :: rest => spec.expand :: expandAll rest

end

mutual

theorem renamed_renamed (g f : String → String) : ∀ spec : FilterSpec,
    (spec.renamed f).renamed g = spec.renamed fun name => g (f name)
  | ⟨op, name, value, subFilters⟩ => by
    rw [renamed, renamed, renamed, renamedAll_renamedAll g f subFilters, Option.map_map]
    rfl

theorem renamedAll_renamedAll (g f : String → String) : ∀ specs : List FilterSpec,
    renamedAll g (renamedAll f specs) = renamedAll (fun name => g (f name)) specs
  | [] => rfl
  | spec :: rest => by
    rw [renamedAll, renamedAll, renamedAll, renamed_renamed g f spec,
      renamedAll_renamedAll g f rest]

end

mutual

theorem renamed_id : ∀ spec : FilterSpec, spec.renamed id = spec
  | ⟨op, name, value, subFilters⟩ => by
    rw [renamed, renamedAll_id subFilters, Option.map_id, id]

theorem renamedAll_id : ∀ specs : List FilterSpec, renamedAll id specs = specs
  | [] => rfl
  | spec :: rest => by
    rw [renamedAll, renamed_id spec, renamedAll_id rest]

end

theorem renamedAll_equalities (rename : String → String) (name : Option String) :
    ∀ values, renamedAll rename (equalities name values) = equalities (name.map rename) values
  | [] => rfl
  | value :: rest => by
    rw [equalities, renamedAll, renamed, renamedAll, renamedAll_equalities rename name rest,
      equalities]

section Build

variable {m : MessageType} {name : Option String}

theorem field_eq_ok {f : Field m.fields} (h : field m name = .ok f) :
    ∃ text, name = some text ∧ m.field text = .ok f := by
  rcases name with _ | text
  · exact (invalidModel_ne_ok h).elim
  · exact ⟨text, rfl, h⟩

theorem scalarField_eq_ok {f : ScalarField m.fields} :
    scalarField m name = .ok f ↔ field m name = .ok (.scalar f) := by
  unfold scalarField
  rcases field m name with err | g | g
  · exact iff_of_false nofun nofun
  · simp [bind, Except.bind, pure, Except.pure]
  · exact iff_of_false nofun nofun

theorem numericField_eq_ok {f : ScalarField m.fields} :
    numericField m name = .ok f ↔ scalarField m name = .ok f ∧ f.kind.isNumeric = true := by
  unfold numericField
  simp only [bind_eq_ok]
  constructor
  · rintro ⟨g, hg, h⟩
    split_ifs at h with hnumeric
    · cases h
      exact ⟨hg, hnumeric⟩
    · exact (invalidModel_ne_ok h).elim
  · rintro ⟨h, hnumeric⟩
    exact ⟨f, h, if_pos hnumeric⟩

theorem messageField_eq_ok {f : MessageField m.fields} (h : messageField m name = .ok f) :
    ∃ text, name = some text ∧ m.field text = .ok (.message f) := by
  unfold messageField at h
  obtain ⟨g | g, hg, h⟩ := bind_eq_ok.1 h
  · exact (invalidModel_ne_ok h).elim
  · cases h
    exact field_eq_ok hg

theorem literalText_eq_ok {value : Option String} {text : String}
    (h : literalText value = .ok text) : value = some text := by
  rcases value with _ | given
  · exact (invalidModel_ne_ok h).elim
  · exact congrArg some (Except.ok.inj h)

theorem parts_eq_ok {specs : List FilterSpec} {fs : Filters m.fields} :
    parts m specs = .ok fs ↔ specs ≠ [] ∧ buildAll m specs = .ok fs := by
  rcases specs with _ | ⟨spec, rest⟩
  · rw [parts]
    exact iff_of_false invalidModel_ne_ok fun h => h.1 rfl
  · rw [parts, buildAll]
    exact (and_iff_right (List.cons_ne_nil _ _)).symm

/-- The equalities with the values of a choice are built with it, and one of them holds just when
the choice does. -/
theorem buildAll_equalities {f : ScalarField m.fields} (hf : scalarField m name = .ok f) :
    ∀ {values : List String} {literals : List f.kind.Carrier},
      values.mapM (literal f.kind) = .ok literals →
      ∃ parts, buildAll m (equalities name values) = .ok parts ∧ parts.areBasic = true ∧
        ∀ r, parts.anyHoldsOf r = (Filter.oneOf f literals).holdsOf r
  | [], literals, h => by
    cases h
    refine ⟨.nil, rfl, rfl, fun r => ?_⟩
    rw [Filters.anyHoldsOf, Filter.holdsOf]
    rcases r.bind f.get with _ | v
    · rfl
    · rfl
  | value :: rest, literals, h => by
    simp only [List.mapM_cons, bind_eq_ok, pure_eq_ok] at h
    obtain ⟨first, hfirst, others, hothers, rfl⟩ := h
    obtain ⟨parts, hparts, hbasic, hholds⟩ := buildAll_equalities hf hothers
    refine ⟨.cons (.equal f first) parts, ?_, ?_, fun r => ?_⟩
    · rw [equalities, buildAll, build]
      simp only [bind_eq_ok, pure_eq_ok]
      exact ⟨_, ⟨f, hf, value, rfl, first, hfirst, rfl⟩, parts, hparts, rfl⟩
    · rw [Filters.areBasic, Filter.isBasic, hbasic, Bool.and_true]
    · rw [Filters.anyHoldsOf, hholds, Filter.holdsOf, Filter.holdsOf, Filter.holdsOf]
      rcases r.bind f.get with _ | v
      · rfl
      · rfl

end Build

/-- The fields of a message type are found in a record under other names, and read there what they
read in the message to which `lead` leads from the record. -/
def Renames (m root : MessageType) (rename : String → String)
    (lead : Option root.fields.Record → Option m.fields.Record) : Prop :=
  ∀ text f, m.field text = .ok f → ∃ g, root.field (rename text) = .ok g ∧ f.Mirrors lead g

namespace Renames

variable {m root : MessageType} {rename : String → String} {name : Option String}
  {lead : Option root.fields.Record → Option m.fields.Record}

theorem id (m : MessageType) : Renames m m id id := fun _ f h => ⟨f, h, .refl f⟩

theorem field (hr : Renames m root rename lead) {f : Field m.fields}
    (h : FilterSpec.field m name = .ok f) :
    ∃ g, FilterSpec.field root (name.map rename) = .ok g ∧ f.Mirrors lead g := by
  obtain ⟨text, rfl, h⟩ := field_eq_ok h
  exact hr text f h

/-- A scalar is a scalar of the same kind from outside. -/
theorem scalarField (hr : Renames m root rename lead) {text : String} {k : ScalarKind}
    {p : Path m.fields (.scalar k)} (h : FilterSpec.scalarField m name = .ok ⟨text, k, p⟩) :
    ∃ text' q, FilterSpec.scalarField root (name.map rename) = .ok ⟨text', k, q⟩ ∧
      ∀ r, r.bind q.get = (lead r).bind p.get := by
  obtain ⟨g, hg, hmirrors⟩ := hr.field (scalarField_eq_ok.1 h)
  cases hmirrors with
  | scalar _ text' hget => exact ⟨text', _, scalarField_eq_ok.2 hg, hget⟩

theorem numericField (hr : Renames m root rename lead) {text : String} {k : ScalarKind}
    {p : Path m.fields (.scalar k)} (h : FilterSpec.numericField m name = .ok ⟨text, k, p⟩) :
    ∃ text' q, FilterSpec.numericField root (name.map rename) = .ok ⟨text', k, q⟩ ∧
      ∀ r, r.bind q.get = (lead r).bind p.get := by
  obtain ⟨hfield, hnumeric⟩ := numericField_eq_ok.1 h
  obtain ⟨text', q, houter, hget⟩ := hr.scalarField hfield
  exact ⟨text', q, numericField_eq_ok.2 ⟨houter, hnumeric⟩, hget⟩

/-- The fields of a message are found behind the name of the message. -/
theorem within (hr : Renames m root rename lead) {owner : String} {f : MessageField m.fields}
    (h : m.field owner = .ok (.message f)) :
    Renames ⟨f.name, f.fields⟩ root (fun text => rename (owner ++ "." ++ text))
      fun r => (lead r).bind f.path.get := by
  intro text g hg
  obtain ⟨inner, hinner, hmirrors⟩ := MessageType.field_within h hg
  obtain ⟨outer, houter, hmirrors'⟩ := hr _ inner hinner
  exact ⟨outer, houter, hmirrors.trans hmirrors'⟩

end Renames

end FilterSpec

/-! ## What is written out holds alike -/

/-- A basic filter on a record holds just when a filter on a message does to which `lead` leads. -/
structure Filter.Mirrors {fs gs : Fields} (lead : Option gs.Record → Option fs.Record)
    (f : Filter fs) (g : Filter gs) : Prop where
  isBasic : g.isBasic = true
  holdsOf : ∀ r, g.holdsOf r = f.holdsOf (lead r)

/-- As many filters mirror as many filters. -/
inductive Filters.Mirrors {fs gs : Fields} (lead : Option gs.Record → Option fs.Record) :
    Filters fs → Filters gs → Prop
  | nil : Mirrors lead .nil .nil
  | cons {f : Filter fs} {g : Filter gs} {rest : Filters fs} {rest' : Filters gs} :
      f.Mirrors lead g → Mirrors lead rest rest' → Mirrors lead (.cons f rest) (.cons g rest')

namespace Filters.Mirrors

variable {fs gs : Fields} {lead : Option gs.Record → Option fs.Record} {parts : Filters fs}
  {parts' : Filters gs}

theorem areBasic (h : parts.Mirrors lead parts') : parts'.areBasic = true := by
  induction h with
  | nil => rfl
  | cons hfirst _ ih => rw [Filters.areBasic, hfirst.isBasic, ih, Bool.and_true]

theorem allHoldOf (h : parts.Mirrors lead parts') (r : Option gs.Record) :
    parts'.allHoldOf r = parts.allHoldOf (lead r) := by
  induction h with
  | nil => rfl
  | cons hfirst _ ih => rw [Filters.allHoldOf, Filters.allHoldOf, hfirst.holdsOf, ih]

theorem anyHoldsOf (h : parts.Mirrors lead parts') (r : Option gs.Record) :
    parts'.anyHoldsOf r = parts.anyHoldsOf (lead r) := by
  induction h with
  | nil => rfl
  | cons hfirst _ ih => rw [Filters.anyHoldsOf, Filters.anyHoldsOf, hfirst.holdsOf, ih]

end Filters.Mirrors

namespace FilterSpec

section Leaves

variable {m root : MessageType} {rename : String → String} {name value : Option String}
  {subFilters : List FilterSpec} {lead : Option root.fields.Record → Option m.fields.Record}

theorem has_mirrors (hr : Renames m root rename lead) {f : Filter m.fields}
    (h : build m ⟨.has, name, value, subFilters⟩ = .ok f) (subFilters' : List FilterSpec) :
    ∃ g, build root ⟨.has, name.map rename, value, subFilters'⟩ = .ok g ∧ f.Mirrors lead g := by
  simp only [build, bind_eq_ok, pure_eq_ok] at h ⊢
  obtain ⟨field, hfield, rfl⟩ := h
  obtain ⟨outer, houter, hmirrors⟩ := hr.field hfield
  exact ⟨_, ⟨outer, houter, rfl⟩, rfl, hmirrors.any_isSet⟩

theorem equal_mirrors (hr : Renames m root rename lead) {f : Filter m.fields}
    (h : build m ⟨.equal, name, value, subFilters⟩ = .ok f) (subFilters' : List FilterSpec) :
    ∃ g, build root ⟨.equal, name.map rename, value, subFilters'⟩ = .ok g ∧ f.Mirrors lead g := by
  simp only [build, bind_eq_ok, pure_eq_ok] at h ⊢
  obtain ⟨⟨text, k, p⟩, hfield, text, htext, v, hv, rfl⟩ := h
  obtain ⟨_, q, houter, hget⟩ := hr.scalarField hfield
  exact ⟨_, ⟨_, houter, text, htext, v, hv, rfl⟩, rfl, fun r => congrArg (Option.any _) (hget r)⟩

theorem greater_mirrors (hr : Renames m root rename lead) {f : Filter m.fields}
    (h : build m ⟨.greater, name, value, subFilters⟩ = .ok f) (subFilters' : List FilterSpec) :
    ∃ g, build root ⟨.greater, name.map rename, value, subFilters'⟩ = .ok g ∧
      f.Mirrors lead g := by
  simp only [build, bind_eq_ok, pure_eq_ok] at h ⊢
  obtain ⟨⟨text, k, p⟩, hfield, text, htext, v, hv, rfl⟩ := h
  obtain ⟨_, q, houter, hget⟩ := hr.numericField hfield
  exact ⟨_, ⟨_, houter, text, htext, v, hv, rfl⟩, rfl, fun r => congrArg (Option.any _) (hget r)⟩

theorem less_mirrors (hr : Renames m root rename lead) {f : Filter m.fields}
    (h : build m ⟨.less, name, value, subFilters⟩ = .ok f) (subFilters' : List FilterSpec) :
    ∃ g, build root ⟨.less, name.map rename, value, subFilters'⟩ = .ok g ∧
      f.Mirrors lead g := by
  simp only [build, bind_eq_ok, pure_eq_ok] at h ⊢
  obtain ⟨⟨text, k, p⟩, hfield, text, htext, v, hv, rfl⟩ := h
  obtain ⟨_, q, houter, hget⟩ := hr.numericField hfield
  exact ⟨_, ⟨_, houter, text, htext, v, hv, rfl⟩, rfl, fun r => congrArg (Option.any _) (hget r)⟩

/-- The choice of a value is the disjunction of the equalities with each of them. -/
theorem oneOf_mirrors (hr : Renames m root rename lead) {f : Filter m.fields}
    (h : build m ⟨.oneOf, name, value, subFilters⟩ = .ok f) :
    ∃ text, value = some text ∧ ∃ g,
      build root ⟨.any, none, none, equalities (name.map rename) (Text.split ',' text)⟩ = .ok g ∧
        f.Mirrors lead g := by
  simp only [build, bind_eq_ok, pure_eq_ok, parts_eq_ok] at h ⊢
  obtain ⟨⟨text, k, p⟩, hfield, values, hvalues, literals, hliterals, rfl⟩ := h
  obtain ⟨_, q, houter, hget⟩ := hr.scalarField hfield
  obtain ⟨parts, hparts, hbasic, hholds⟩ := buildAll_equalities houter hliterals
  refine ⟨values, literalText_eq_ok hvalues, _, ⟨parts, ⟨?_, hparts⟩, rfl⟩, hbasic, fun r => ?_⟩
  · rcases hsplit : Text.split ',' values with _ | ⟨value, rest⟩
    · exact absurd hsplit (Text.split_ne_nil ',' values)
    · exact List.cons_ne_nil _ _
  · calc (Filter.any parts).holdsOf r
      _ = (Filter.oneOf ⟨_, k, q⟩ literals).holdsOf r := hholds r
      _ = (Filter.oneOf ⟨text, k, p⟩ literals).holdsOf (lead r) :=
        congrArg (Option.any _) (hget r)

end Leaves

/-- Where there is a filter there is one when it is written out. -/
theorem parts_written {m root : MessageType} {rename : String → String}
    {specs : List FilterSpec} {fs : Filters m.fields} {gs : Filters root.fields}
    (h : parts m specs = .ok fs)
    (hall : buildAll root (renamedAll rename (expandAll specs)) = .ok gs) :
    parts root (renamedAll rename (expandAll specs)) = .ok gs := by
  refine parts_eq_ok.2 ⟨?_, hall⟩
  rcases specs with _ | ⟨spec, rest⟩
  · exact absurd rfl (parts_eq_ok.1 h).1
  · exact List.cons_ne_nil _ _

mutual

theorem build_expand_renamed {m root : MessageType} {rename : String → String}
    {lead : Option root.fields.Record → Option m.fields.Record}
    (hr : Renames m root rename lead) : ∀ (spec : FilterSpec) {f : Filter m.fields},
      spec.build m = .ok f →
      ∃ g, (spec.expand.renamed rename).build root = .ok g ∧ f.Mirrors lead g
  | ⟨.invalid, name, value, subFilters⟩, f, h => by
    rw [build] at h
    exact (invalidModel_ne_ok h).elim
  | ⟨.always, name, value, subFilters⟩, f, h => by
    rw [build] at h
    cases h
    exact ⟨.always, rfl, rfl, fun _ => rfl⟩
  | ⟨.has, name, value, subFilters⟩, f, h => has_mirrors hr h _
  | ⟨.equal, name, value, subFilters⟩, f, h => equal_mirrors hr h _
  | ⟨.greater, name, value, subFilters⟩, f, h => greater_mirrors hr h _
  | ⟨.less, name, value, subFilters⟩, f, h => less_mirrors hr h _
  | ⟨.oneOf, name, value, subFilters⟩, f, h => by
    obtain ⟨text, rfl, hany⟩ := oneOf_mirrors hr h
    rwa [← renamedAll_equalities] at hany
  | ⟨.all, name, value, subFilters⟩, f, h => by
    simp only [build, bind_eq_ok, pure_eq_ok] at h
    obtain ⟨parts, hparts, rfl⟩ := h
    obtain ⟨parts', hall, hmirrors⟩ :=
      buildAll_expand_renamed hr subFilters (parts_eq_ok.1 hparts).2
    refine ⟨.all parts', ?_, hmirrors.areBasic, hmirrors.allHoldOf⟩
    simp only [expand, renamed, build, bind_eq_ok, pure_eq_ok]
    exact ⟨parts', parts_written hparts hall, rfl⟩
  | ⟨.any, name, value, subFilters⟩, f, h => by
    simp only [build, bind_eq_ok, pure_eq_ok] at h
    obtain ⟨parts, hparts, rfl⟩ := h
    obtain ⟨parts', hall, hmirrors⟩ :=
      buildAll_expand_renamed hr subFilters (parts_eq_ok.1 hparts).2
    refine ⟨.any parts', ?_, hmirrors.areBasic, hmirrors.anyHoldsOf⟩
    simp only [expand, renamed, build, bind_eq_ok, pure_eq_ok]
    exact ⟨parts', parts_written hparts hall, rfl⟩
  | ⟨.not, name, value, subFilters⟩, f, h => by
    simp only [build, bind_eq_ok] at h
    obtain ⟨parts, hparts, h⟩ := h
    obtain ⟨parts', hall, hmirrors⟩ :=
      buildAll_expand_renamed hr subFilters (parts_eq_ok.1 hparts).2
    rcases hmirrors with _ | @⟨part, part', _, _, hpart, _ | _⟩
    · exact (invalidModel_ne_ok h).elim
    · cases h
      refine ⟨.not part', ?_, hpart.isBasic, fun r => congrArg Bool.not (hpart.holdsOf r)⟩
      simp only [expand, renamed, build, bind_eq_ok]
      exact ⟨_, parts_written hparts hall, rfl⟩
    · exact (invalidModel_ne_ok h).elim
  | ⟨.within, name, value, subFilters⟩, f, h => by
    simp only [build, bind_eq_ok, pure_eq_ok] at h
    obtain ⟨field, hfield, parts, hparts, rfl⟩ := h
    obtain ⟨owner, rfl, howner⟩ := messageField_eq_ok hfield
    obtain ⟨parts', hall, hmirrors⟩ :=
      buildAll_expand_renamed (hr.within howner) subFilters (parts_eq_ok.1 hparts).2
    refine ⟨.all parts', ?_, hmirrors.areBasic, hmirrors.allHoldOf⟩
    simp only [expand, renamed, renamedAll_renamedAll, build, bind_eq_ok, pure_eq_ok]
    exact ⟨parts', parts_written hparts hall, rfl⟩

theorem buildAll_expand_renamed {m root : MessageType} {rename : String → String}
    {lead : Option root.fields.Record → Option m.fields.Record}
    (hr : Renames m root rename lead) : ∀ (specs : List FilterSpec) {fs : Filters m.fields},
      buildAll m specs = .ok fs →
      ∃ gs, buildAll root (renamedAll rename (expandAll specs)) = .ok gs ∧ fs.Mirrors lead gs
  | [], fs, h => by
    cases h
    exact ⟨.nil, rfl, .nil⟩
  | spec :: rest, fs, h => by
    simp only [buildAll, bind_eq_ok, pure_eq_ok] at h
    obtain ⟨first, hfirst, others, hothers, rfl⟩ := h
    obtain ⟨first', hfirst', hmirrors⟩ := build_expand_renamed hr spec hfirst
    obtain ⟨others', hothers', hmirrorsAll⟩ := buildAll_expand_renamed hr rest hothers
    refine ⟨.cons first' others', ?_, .cons hmirrors hmirrorsAll⟩
    simp only [expandAll, renamedAll, buildAll, bind_eq_ok, pure_eq_ok]
    exact ⟨first', hfirst', others', hothers', rfl⟩

end

/-- Writing a filter out leaves it accepted, and it holds of the same records as before, of those
in which an enclosing message is unset too. -/
theorem build_expand {m : MessageType} {spec : FilterSpec} {f : Filter m.fields}
    (h : spec.build m = .ok f) :
    ∃ g, spec.expand.build m = .ok g ∧ g.isBasic = true ∧
      ∀ r : Option m.fields.Record, g.holdsOf r = f.holdsOf r := by
  obtain ⟨g, hg, hbasic, hholds⟩ := build_expand_renamed (Renames.id m) spec h
  rw [renamed_id] at hg
  exact ⟨g, hg, hbasic, hholds⟩

/-- Not both of an age that starts at 18 or 25 and no gender, in the demographics acted on. -/
def notYoungAndUnknown : FilterSpec :=
  ⟨.not, none, none, [⟨.within, some "acting_demo", none,
    [⟨.within, some "age", none, [⟨.oneOf, some "min_age", some "18,25", []⟩]⟩,
      ⟨.not, none, none, [⟨.has, some "gender", none, []⟩]⟩]⟩]⟩

example : notYoungAndUnknown.expand =
    ⟨.not, none, none, [⟨.all, none, none,
      [⟨.all, none, none, [⟨.any, none, none,
        [⟨.equal, some "acting_demo.age.min_age", some "18", []⟩,
          ⟨.equal, some "acting_demo.age.min_age", some "25", []⟩]⟩]⟩,
        ⟨.not, none, none, [⟨.has, some "acting_demo.gender", none, []⟩]⟩]⟩]⟩ := rfl

theorem build_expand_notYoungAndUnknown :
    ∃ f g, notYoungAndUnknown.build Schema.event = .ok f ∧
      notYoungAndUnknown.expand.build Schema.event = .ok g ∧ g.isBasic = true ∧
      ∀ r : Option Schema.event.fields.Record, g.holdsOf r = f.holdsOf r := by
  obtain ⟨f, hf⟩ : ∃ f, notYoungAndUnknown.build Schema.event = .ok f := ⟨_, rfl⟩
  obtain ⟨g, hg⟩ := build_expand hf
  exact ⟨f, g, hf, hg⟩

end FilterSpec

end VirtualPeople
