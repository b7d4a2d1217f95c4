import VirtualPeople.Model.Node
import VirtualPeople.Proofs.Update.Columnwise
import VirtualPeople.Proofs.Update.Matching

/-!
# Updates are all or nothing

A built update that fails leaves the event as it was, since the one thing that it does after a write
is to end. Passing events through that nothing matches changes nothing else
(`Update.all_or_nothing`): the flag is not read while a matrix or a merge is built, and an update
reads it only where no column and no condition is found. What is found is told by the columns and
conditions as they are written (`ColumnMatcher.find_eq_none_iff`).
-/

namespace VirtualPeople

/-- An update whose flag decides only what becomes of the events that nothing matches. -/
structure PassesThrough (build : Option Bool → Except Error Update) (Matches : Event → Prop) :
    Prop where
  accepted : ∀ flag flag', (∃ u, build flag = .ok u) → ∃ u, build flag' = .ok u
  matched : ∀ {flag flag' u u'}, build flag = .ok u → build flag' = .ok u' →
    ∀ e, Matches e → u.apply e = u'.apply e
  strict : ∀ {flag u}, build flag = .ok u → flag.getD false = false →
    ∀ e, ¬ Matches e → ∃ fault, u.apply e = .error (.invalidEvent fault) e
  through : ∀ {flag u}, build flag = .ok u → flag.getD false = true →
    ∀ e, ¬ Matches e → u.apply e = .ok () e

/-- It suffices that the flag is put into what is built without it, and read where nothing
matches. -/
theorem PassesThrough.of_built {Built : Type} {built : Except Error Built}
    {build : Option Bool → Except Error Built} {withFlag : Bool → Built → Built}
    {Matches : Event → Prop} {wrap : Built → Update} {fault : EventFault}
    (hbuild : ∀ flag, build flag = withFlag (flag.getD false) <$> built)
    (hmatched : ∀ {u}, built = .ok u → ∀ {e}, Matches e → ∀ flag flag',
      (wrap (withFlag flag u)).apply e = (wrap (withFlag flag' u)).apply e)
    (hunmatched : ∀ {u}, built = .ok u → ∀ {e}, ¬ Matches e → ∀ flag,
      (wrap (withFlag flag u)).apply e = Labeling.unmatched flag fault e) :
    PassesThrough (fun flag => wrap <$> build flag) Matches := by
  have hmade : ∀ {flag v}, wrap <$> build flag = .ok v ↔
      ∃ u, built = .ok u ∧ wrap (withFlag (flag.getD false) u) = v := by
    intro flag v
    rw [hbuild, ← comp_map, map_eq_ok]
    rfl
  refine ⟨fun flag flag' ⟨v, hv⟩ => ?_, fun hv hv' e he => ?_, fun hv hflag e he => ?_,
    fun hv hflag e he => ?_⟩
  · obtain ⟨u, hu, -⟩ := hmade.1 hv
    exact ⟨_, hmade.2 ⟨u, hu, rfl⟩⟩
  · obtain ⟨u, hu, rfl⟩ := hmade.1 hv
    obtain ⟨u', hu', rfl⟩ := hmade.1 hv'
    obtain rfl : u = u' := Except.ok.inj (hu.symm.trans hu')
    exact hmatched hu he _ _
  · obtain ⟨u, hu, rfl⟩ := hmade.1 hv
    rw [hunmatched hu he, hflag]
    exact ⟨fault, rfl⟩
  · obtain ⟨u, hu, rfl⟩ := hmade.1 hv
    rw [hunmatched hu he, hflag]
    rfl

/-- An event belongs to a column: it has the scalars that are set in the column, or, with a mask,
the masked fingerprint of the column. -/
def Belongs (mask : Option FieldMask) (column e : Event) : Prop :=
  match mask with
  | none => ∀ k (p : Path Schema.event.fields (.scalar k)) v, p.get column = some v →
    HasEqual e p v
  | some mask => ∀ fields, mask.paths.mapM Schema.event.field = .ok fields →
    MaskTable.maskedFingerprint (MaskTable.distinct fields) column =
      MaskTable.maskedFingerprint (MaskTable.distinct fields) e

theorem MaskTable.find_eq_none_iff {columns : List Event} {mask : FieldMask} {t : MaskTable}
    (h : build columns mask = .ok t) (e : Event) :
    t.find? e = none ↔ ∀ c ∈ columns, ¬ Belongs (some mask) c e := by
  unfold build at h
  split_ifs at h
  · exact (invalidModel_ne_ok h).elim
  · exact (invalidModel_ne_ok h).elim
  · simp only [bind_eq_ok, pure_eq_ok] at h
    obtain ⟨fields, hfields, table, hfill, rfl⟩ := h
    obtain ⟨-, hnodup, rfl⟩ := fill_eq_ok.1 hfill
    have hbelongs : ∀ c, Belongs (some mask) c e ↔
        maskedFingerprint (distinct fields) c = maskedFingerprint (distinct fields) e := by
      intro c
      refine ⟨fun hc => hc fields hfields, fun heq others hothers => ?_⟩
      rw [hfields] at hothers
      cases hothers
      exact heq
    have hlookup : ∀ i, ((columns.map (maskedFingerprint (distinct fields))).zipIdx 0).lookup
        (maskedFingerprint (distinct fields) e) = some i ↔
          (columns.map (maskedFingerprint (distinct fields)))[i]? =
            some (maskedFingerprint (distinct fields) e) := fun i => lookup_zipIdx hnodup
    rw [List.reverse_nil, List.nil_append, List.length_nil, find?,
      Option.eq_none_iff_forall_ne_some]
    simp only [ne_eq, hlookup, hbelongs]
    rw [← not_exists, ← List.mem_iff_getElem?, List.mem_map]
    simp only [not_exists, not_and]

namespace ColumnMatcher

/-- A column is found if the event belongs to one. -/
theorem find_eq_none_iff {columns : List Event} {mask : Option FieldMask} {matcher : ColumnMatcher}
    (h : build columns mask = .ok matcher) (e : Event) :
    matcher.find? e = none ↔ ∀ c ∈ columns, ¬ Belongs mask c e := by
  rcases mask with _ | mask
  · simp only [build, bind_eq_ok, pure_eq_ok] at h
    obtain ⟨filters, hfilters, rfl⟩ := h
    have hscan : find? (.filters filters) e = filters.findIdx? (·.holds e) := rfl
    rw [hscan, List.findIdx?_eq_none_iff]
    constructor
    · intro hnone c hc hbelongs
      obtain ⟨f, hf⟩ := exists_mapM_iff.1 ⟨filters, hfilters⟩ c hc
      have hfalse := hnone f ((mem_of_mapM hfilters f).2 ⟨c, hc, hf⟩)
      rw [(Filter.holds_ofRecord hf).2 hbelongs] at hfalse
      cases hfalse
    · intro hnone f hf
      obtain ⟨c, hc, hbuilt⟩ := (mem_of_mapM hfilters f).1 hf
      exact Bool.eq_false_iff.2 fun hholds => hnone c hc ((Filter.holds_ofRecord hbuilt).1 hholds)
  · simp only [build, bind_eq_ok, pure_eq_ok] at h
    obtain ⟨t, ht, rfl⟩ := h
    exact MaskTable.find_eq_none_iff ht e

variable {matcher : ColumnMatcher} {distributions : List Distribution} {seed : String} {e : Event}

theorem select_eq_none : matcher.select distributions seed e = .ok none ↔
    matcher.find? e = none := by
  unfold select
  rcases matcher.find? e with _ | column
  · exact iff_of_true rfl rfl
  · refine iff_of_false (fun h => ?_) nofun
    simp only at h
    split at h
    · cases h
    · cases h

variable {change? : Nat → Nat → Option Event}

theorem mergeRow_of_found (h : matcher.find? e ≠ none) (flag flag' : Bool) :
    matcher.mergeRow distributions seed flag change? e =
      matcher.mergeRow distributions seed flag' change? e := by
  unfold mergeRow
  rcases hselect : matcher.select distributions seed e with err | _ | ⟨column, row⟩
  · rfl
  · exact absurd (select_eq_none.1 hselect) h
  · rfl

theorem mergeRow_of_unfound (h : matcher.find? e = none) (flag : Bool) :
    matcher.mergeRow distributions seed flag change? e =
      Labeling.unmatched flag .noColumnMatches e := by
  unfold mergeRow
  rw [select_eq_none.2 h]

end ColumnMatcher

theorem MatrixSpec.build_with_flag (m : MatrixSpec) (flag : Option Bool) :
    { m with passThrough := flag }.build =
      (fun built => { built with passThrough := flag.getD false }) <$> m.build := by
  unfold build
  simp only
  split_ifs
  · rfl
  · rfl
  · rfl
  · simp only [map_bind, map_pure]
    rfl

namespace Matrix

variable {m : Matrix} {e : Event}

theorem update_of_found (h : m.matcher.find? e ≠ none) (flag flag' : Bool) :
    { m with passThrough := flag }.update e = { m with passThrough := flag' }.update e :=
  ColumnMatcher.mergeRow_of_found h flag flag'

theorem update_of_unfound (h : m.matcher.find? e = none) (flag : Bool) :
    { m with passThrough := flag }.update e = Labeling.unmatched flag .noColumnMatches e :=
  ColumnMatcher.mergeRow_of_unfound h flag

end Matrix

theorem MatrixSpec.passesThrough (m : MatrixSpec) :
    PassesThrough (fun flag => .matrix <$> { m with passThrough := flag }.build)
      fun e => ∃ c ∈ m.columns, Belongs m.mask c e := by
  have hfound : ∀ {built}, m.build = .ok built → ∀ {e}, built.matcher.find? e = none ↔
      ¬ ∃ c ∈ m.columns, Belongs m.mask c e := by
    intro built h e
    obtain ⟨-, -, -, matcher, hmatcher, distributions, -, rfl⟩ := MatrixSpec.build_eq_ok.1 h
    rw [ColumnMatcher.find_eq_none_iff hmatcher]
    simp only [not_exists, not_and]
  exact .of_built m.build_with_flag
    (fun h _ he => Matrix.update_of_found fun hnone => (hfound h).1 hnone he)
    fun h _ he => Matrix.update_of_unfound ((hfound h).2 he)

theorem SparseMatrixSpec.build_with_flag (m : SparseMatrixSpec) (flag : Option Bool) :
    { m with passThrough := flag }.build =
      (fun built => { built with passThrough := flag.getD false }) <$> m.build := by
  unfold build
  simp only
  split_ifs
  · rfl
  · simp only [map_bind, map_pure]

namespace SparseMatrix

variable {m : SparseMatrix} {e : Event}

theorem update_of_found (h : m.matcher.find? e ≠ none) (flag flag' : Bool) :
    { m with passThrough := flag }.update e = { m with passThrough := flag' }.update e :=
  ColumnMatcher.mergeRow_of_found h flag flag'

theorem update_of_unfound (h : m.matcher.find? e = none) (flag : Bool) :
    { m with passThrough := flag }.update e = Labeling.unmatched flag .noColumnMatches e :=
  ColumnMatcher.mergeRow_of_unfound h flag

end SparseMatrix

theorem SparseMatrixSpec.passesThrough (m : SparseMatrixSpec) :
    PassesThrough (fun flag => .sparseMatrix <$> { m with passThrough := flag }.build)
      fun e => ∃ c ∈ m.columns, ∃ column, c.attributes = some column ∧ Belongs m.mask column e := by
  have hfound : ∀ {built}, m.build = .ok built → ∀ {e}, built.matcher.find? e = none ↔
      ¬ ∃ c ∈ m.columns, ∃ column, c.attributes = some column ∧ Belongs m.mask column e := by
    intro built h e
    obtain ⟨-, attributes, hattributes, matcher, hmatcher, distributions, -, rfl⟩ :=
      SparseMatrixSpec.build_eq_ok.1 h
    have hmem : ∀ column, column ∈ attributes ↔ ∃ c ∈ m.columns, c.attributes = some column := by
      intro column
      rw [← List.mem_map_of_injective (Option.some_injective _),
        ← (SparseColumnSpec.checkAll_eq_ok.1 hattributes).1, List.mem_map]
    rw [ColumnMatcher.find_eq_none_iff hmatcher]
    simp only [hmem]
    constructor
    · rintro hnone ⟨c, hc, column, hcolumn, hbelongs⟩
      exact hnone column ⟨c, hc, hcolumn⟩ hbelongs
    · rintro hnone column ⟨c, hc, hcolumn⟩ hbelongs
      exact hnone ⟨c, hc, column, hcolumn, hbelongs⟩
  exact .of_built m.build_with_flag
    (fun h _ he => SparseMatrix.update_of_found fun hnone => (hfound h).1 hnone he)
    fun h _ he => SparseMatrix.update_of_unfound ((hfound h).2 he)

theorem ConditionalMergeSpec.build_with_flag (m : ConditionalMergeSpec) (flag : Option Bool) :
    { m with passThrough := flag }.build =
      (fun built => { built with passThrough := flag.getD false }) <$> m.build := by
  unfold build
  simp only
  split_ifs
  · rfl
  · simp only [map_bind, map_pure]

namespace MergeCaseSpec

/-- The condition of a case holds of an event. -/
def Holds (c : MergeCaseSpec) (e : Event) : Prop :=
  ∃ condition filter, c.condition = some condition ∧
    condition.build Schema.event = .ok filter ∧ filter.holds e

theorem holds_of_build {place : Nat} {c : MergeCaseSpec}
    {built : Filter Schema.event.fields × Event} (h : c.build place = .ok built) (e : Event) :
    c.Holds e ↔ built.1.holds e := by
  unfold build at h
  split at h
  · exact (invalidModel_ne_ok h).elim
  · exact (invalidModel_ne_ok h).elim
  · rename_i condition update hcondition hupdate
    simp only [bind_eq_ok, pure_eq_ok] at h
    obtain ⟨filter, hfilter, rfl⟩ := h
    constructor
    · rintro ⟨condition', filter', hcondition', hfilter', hholds⟩
      obtain rfl := Option.some.inj (hcondition.symm.trans hcondition')
      obtain rfl := Except.ok.inj (hfilter.symm.trans hfilter')
      exact hholds
    · exact fun hholds => ⟨condition, filter, hcondition, hfilter, hholds⟩

theorem find_buildAll_eq_none : ∀ {cases : List MergeCaseSpec} {place : Nat}
    {built : List (Filter Schema.event.fields × Event)}, buildAll place cases = .ok built →
    ∀ e, firstMatch (built.map (·.1)) e = none ↔ ∀ c ∈ cases, ¬ c.Holds e
  | [], place, built, h, e => by
    cases h
    exact iff_of_true rfl (List.forall_mem_nil _)
  | c :: rest, place, built, h, e => by
    simp only [buildAll, bind_eq_ok, pure_eq_ok] at h
    obtain ⟨first, hfirst, others, hothers, rfl⟩ := h
    rw [List.forall_mem_cons, ← find_buildAll_eq_none hothers e, holds_of_build hfirst]
    simp only [firstMatch, List.map_cons, List.findIdx?_eq_none_iff, List.forall_mem_cons,
      Bool.not_eq_true]

end MergeCaseSpec

namespace ConditionalMerge

variable {m : ConditionalMerge} {e : Event}

theorem update_of_found (h : firstMatch m.conditions e ≠ none) (flag flag' : Bool) :
    { m with passThrough := flag }.update e = { m with passThrough := flag' }.update e := by
  unfold update
  simp only
  rcases hfirst : firstMatch m.conditions e with _ | i
  · exact absurd hfirst h
  · rfl

theorem update_of_unfound (h : firstMatch m.conditions e = none) (flag : Bool) :
    { m with passThrough := flag }.update e = Labeling.unmatched flag .noNodeMatches e := by
  unfold update
  simp only
  rw [h]

end ConditionalMerge

theorem ConditionalMergeSpec.passesThrough (m : ConditionalMergeSpec) :
    PassesThrough (fun flag => .merge <$> { m with passThrough := flag }.build)
      fun e => ∃ c ∈ m.cases, c.Holds e := by
  have hfound : ∀ {built}, m.build = .ok built → ∀ {e}, firstMatch built.conditions e = none ↔
      ¬ ∃ c ∈ m.cases, c.Holds e := by
    intro built h e
    unfold build at h
    split_ifs at h
    · exact (invalidModel_ne_ok h).elim
    · simp only [bind_eq_ok, pure_eq_ok] at h
      obtain ⟨cases, hcases, rfl⟩ := h
      rw [MergeCaseSpec.find_buildAll_eq_none hcases]
      simp only [not_exists, not_and]
  exact .of_built m.build_with_flag
    (fun h _ he => ConditionalMerge.update_of_found fun hnone => (hfound h).1 hnone he)
    fun h _ he => ConditionalMerge.update_of_unfound ((hfound h).2 he)

namespace Update

/-- An update is built of its description, and changes an event by itself, not by labeling it with
a tree. -/
def IsBuilt : Update → Prop
  | matrix m => ∃ spec, MatrixSpec.build spec = .ok m
  | sparseMatrix m => ∃ spec, SparseMatrixSpec.build spec = .ok m
  | merge m => ∃ spec, ConditionalMergeSpec.build spec = .ok m
  | assignment a => ∃ spec, ConditionalAssignmentSpec.build spec = .ok a
  | shredder s => ∃ spec, ShredderSpec.build spec = .ok s
  | tree _ => False

/-- Matrices and merges fail before they change anything. The writes of a built assignment or
shredder are never refused, so an assignment does not fail at all, and a shredder fails only before
it writes. -/
theorem event_of_error {u : Update} {e e' : Event} {err : Error} (hu : u.IsBuilt)
    (h : u.apply e = .error err e') : e' = e := by
  cases u with
  | matrix m =>
    unfold apply at h
    exact (ColumnMatcher.mergeRow_eq_error h).1
  | sparseMatrix m =>
    unfold apply at h
    exact (ColumnMatcher.mergeRow_eq_error h).1
  | merge m =>
    unfold apply at h
    exact (ConditionalMerge.update_eq_error h).1
  | assignment a =>
    obtain ⟨_, hbuild⟩ := hu
    unfold apply at h
    obtain ⟨s, hs⟩ := a.exists_update (ConditionalAssignmentSpec.kinds_of_build hbuild) e
    cases hs.symm.trans h
  | shredder s =>
    obtain ⟨_, hbuild⟩ := hu
    unfold apply at h
    obtain ⟨rfl, -⟩ | ⟨hash, hwrite⟩ := Shredder.updateBy_eq_error h
    · rfl
    · obtain ⟨_, -, hok⟩ := s.exists_write (ShredderSpec.kind_of_build hbuild) hash e
      cases hok.symm.trans hwrite
  | tree root => exact hu.elim

/-- A built update that fails leaves the event as it was. The flags of a matrix, a sparse matrix and
a merge decide only what becomes of the events that no column or condition matches. -/
theorem all_or_nothing :
    (∀ (u : Update) (e e' : Event) (err : Error), u.IsBuilt → u.apply e = .error err e' → e' = e) ∧
      (∀ m : MatrixSpec, PassesThrough
        (fun flag => matrix <$> { m with passThrough := flag }.build)
        fun e => ∃ c ∈ m.columns, Belongs m.mask c e) ∧
      (∀ m : SparseMatrixSpec, PassesThrough
        (fun flag => sparseMatrix <$> { m with passThrough := flag }.build)
        fun e => ∃ c ∈ m.columns, ∃ column, c.attributes = some column ∧
          Belongs m.mask column e) ∧
      ∀ m : ConditionalMergeSpec, PassesThrough
        (fun flag => merge <$> { m with passThrough := flag }.build)
        fun e => ∃ c ∈ m.cases, c.Holds e :=
  ⟨fun _ _ _ _ => event_of_error, MatrixSpec.passesThrough, SparseMatrixSpec.passesThrough,
    ConditionalMergeSpec.passesThrough⟩

/-- Shreds the fingerprint of an event id by as much as the acting fingerprint. -/
def shreddingId : ShredderSpec :=
  ⟨some 1, some "acting_fingerprint", some "labeler_input.event_id.id_fingerprint", none⟩

/-- A German event has a column of its own, and one without a country has none. Without an event id
there is no fingerprint to shred. -/
theorem all_or_nothing_byCountry :
    ∃ strict through, MatrixSpec.byCountry.build = .ok strict ∧
      { MatrixSpec.byCountry with passThrough := some true }.build = .ok through ∧
      (matrix strict).apply (MaskTable.fromCountry "DE") =
        (matrix through).apply (MaskTable.fromCountry "DE") ∧
      (∃ fault, (matrix strict).apply .empty = .error (.invalidEvent fault) .empty) ∧
      (matrix through).apply .empty = .ok () .empty ∧
      ∃ s, shreddingId.build = .ok s ∧ (shredder s).apply (Event.withFingerprint 13 .empty) =
        .error (.invalidEvent .shredTargetUnset) (Event.withFingerprint 13 .empty) := by
  obtain ⟨hfails, hmatrices, -, -⟩ := all_or_nothing
  have hpasses := hmatrices MatrixSpec.byCountry
  have hbelongs : ∃ c ∈ MatrixSpec.byCountry.columns,
      Belongs none c (MaskTable.fromCountry "DE") := by
    have hfilter : ∃ f, Filter.ofRecord (MaskTable.fromCountry "DE") = .ok f ∧
        f.holds (MaskTable.fromCountry "DE") := ⟨_, rfl, by decide +kernel⟩
    obtain ⟨f, hf, hholds⟩ := hfilter
    exact ⟨_, List.mem_cons_self, (Filter.holds_ofRecord hf).1 hholds⟩
  have hnone : ¬ ∃ c ∈ MatrixSpec.byCountry.columns, Belongs none c .empty := by
    rintro ⟨c, hc, hbelongs⟩
    obtain ⟨code, rfl⟩ : ∃ code, c = MaskTable.fromCountry code := by
      rcases List.mem_cons.1 hc with rfl | hc
      · exact ⟨"DE", rfl⟩
      · exact ⟨"FR", List.mem_singleton.1 hc⟩
    obtain ⟨w, hw, -⟩ := hbelongs .string (.field (.there .here)) code rfl
    cases hw
  obtain ⟨strict, hstrict⟩ : ∃ strict, MatrixSpec.byCountry.build = .ok strict := by
    rcases hbuild : MatrixSpec.byCountry.build with err | strict
    · have hok : MatrixSpec.byCountry.build.isOk := by decide +kernel
      rw [hbuild] at hok
      cases hok
    · exact ⟨strict, rfl⟩
  have hmade : matrix <$> MatrixSpec.byCountry.build = .ok (matrix strict) := by
    rw [hstrict]
    rfl
  obtain ⟨u, hu⟩ := hpasses.accepted none (some true) ⟨_, hmade⟩
  obtain ⟨through, hthrough, rfl⟩ := map_eq_ok.1 hu
  obtain ⟨s, hs⟩ : ∃ s, shreddingId.build = .ok s := ⟨_, rfl⟩
  obtain ⟨e', hfailed⟩ : ∃ e', (shredder s).apply (Event.withFingerprint 13 .empty) =
      .error (.invalidEvent .shredTargetUnset) e' := by
    cases hs
    exact ⟨_, rfl⟩
  have hkept := hfails (shredder s) _ _ _ ⟨_, hs⟩ hfailed
  exact ⟨strict, through, hstrict, hthrough, hpasses.matched hmade hu _ hbelongs,
    hpasses.strict hmade rfl _ hnone, hpasses.through hu rfl _ hnone, s, hs, hkept ▸ hfailed⟩

/-- The message around the user agent. -/
def agentMessage : Schema.event.fields.At
    (.message Schema.labelerInput.name Schema.labelerInput.fields) :=
  .there (.there (.there (.there (.there .here))))

/-- A word assigned to a text, which nothing builds, is refused when the message is created. -/
example : ∃ err e',
    (assignment ⟨.always, [⟨⟨"acting_fingerprint", .uint64, .field .here⟩,
      ⟨"labeler_input.user_agent", .string, .into agentMessage (.field (.there .here))⟩⟩]⟩).apply
        (Event.withFingerprint 13 .empty) = .error (.internal err) e' ∧
      Option.isSome (agentMessage.get e') := ⟨_, _, rfl, rfl⟩

end Update

end VirtualPeople
