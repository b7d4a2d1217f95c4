import VirtualPeople.Proofs.Distribution.Picking
import VirtualPeople.Proofs.Update.Building
import VirtualPeople.Proofs.Update.Writing

/-!
# Updates find what they look for

What building checks of a matrix makes all its places good: a matcher finds one of its columns
(`ColumnMatcher.find_lt`), every column has a distribution over as many rows as it has, and every
condition of a merge has an update. What an assignment or a shredder writes has the kind of its
field. So no update runs into an internal error.
-/

namespace VirtualPeople

/-- Never fails with an internal error, whatever the event. -/
def Labeling.NeverInternal (label : Labeling) : Prop :=
  ∀ e fault s, label e ≠ .error (.internal fault) s

theorem firstMatch_lt {fs : Fields} {filters : List (Filter fs)} {r : fs.Record} {i : Nat}
    (h : firstMatch filters r = some i) : i < filters.length := by
  unfold firstMatch at h
  exact (List.findIdx?_eq_some_iff_getElem.1 h).1

namespace MaskTable

/-- The columns of a table are numbered from those seen on. -/
theorem fill_lt {fields : List (Field Schema.event.fields)} : ∀ {columns : List Event}
    {seen table : List (UInt64 × Nat)}, (∀ p ∈ seen, p.2 < seen.length) →
    fill fields seen columns = .ok table → ∀ p ∈ table, p.2 < seen.length + columns.length
  | [], seen, table, hseen, h => by
    obtain rfl := pure_eq_ok.1 h
    simpa using hseen
  | e :: rest, seen, table, hseen, h => by
    unfold fill at h
    simp only at h
    split at h
    · exact (invalidModel_ne_ok h).elim
    · have hgrown : ∀ p ∈ (maskedFingerprint fields e, seen.length) :: seen,
          p.2 < ((maskedFingerprint fields e, seen.length) :: seen).length := by
        intro p hp
        rw [List.length_cons]
        rcases List.mem_cons.1 hp with rfl | hp
        · exact Nat.lt_succ_self _
        · exact Nat.lt_succ_of_lt (hseen p hp)
      intro p hp
      have hlt := fill_lt hgrown h p hp
      simp only [List.length_cons] at hlt ⊢
      omega

theorem find_lt {columns : List Event} {mask : FieldMask} {t : MaskTable}
    (h : build columns mask = .ok t) {e : Event} {c : Nat} (hc : t.find? e = some c) :
    c < columns.length := by
  unfold build at h
  split_ifs at h
  · exact (invalidModel_ne_ok h).elim
  · exact (invalidModel_ne_ok h).elim
  · simp only [bind_eq_ok, pure_eq_ok] at h
    obtain ⟨fields, -, table, hfill, rfl⟩ := h
    obtain ⟨before, after, htable, -⟩ := List.lookup_eq_some_iff.1 hc
    have hlt := fill_lt (by simp) hfill (maskedFingerprint (distinct fields) e, c) (by
      simp only at htable
      rw [htable]
      exact List.mem_append_right _ List.mem_cons_self)
    simpa using hlt

end MaskTable

namespace ColumnMatcher

theorem find_lt {columns : List Event} {mask : Option FieldMask} {matcher : ColumnMatcher}
    (h : build columns mask = .ok matcher) {e : Event} {c : Nat} (hc : matcher.find? e = some c) :
    c < columns.length := by
  rcases mask with _ | mask
  · simp only [build, bind_eq_ok, pure_eq_ok] at h
    obtain ⟨filters, hfilters, rfl⟩ := h
    rw [(forall₂_of_mapM hfilters).length_eq]
    exact firstMatch_lt hc
  · simp only [build, bind_eq_ok, pure_eq_ok] at h
    obtain ⟨table, htable, rfl⟩ := h
    exact MaskTable.find_lt htable hc

theorem select_eq_some {matcher : ColumnMatcher} {distributions : List Distribution} {seed : String}
    {e : Event} {c r : Nat} (h : matcher.select distributions seed e = .ok (some (c, r))) :
    matcher.find? e = some c ∧ ∃ d s, distributions[c]? = some d ∧ d.pick s = r := by
  unfold select at h
  split at h
  · cases h
  · rename_i column hcolumn
    split at h
    · cases h
    · rename_i d hd
      cases h
      exact ⟨hcolumn, d, _, hd, rfl⟩

theorem select_neverInternal {matcher : ColumnMatcher} {distributions : List Distribution}
    {e : Event} (h : ∀ c, matcher.find? e = some c → ∃ d, distributions[c]? = some d)
    (seed : String) : NeverInternal (matcher.select distributions seed e) := by
  unfold select
  split
  · exact .ok none
  · rename_i column hcolumn
    obtain ⟨d, hd⟩ := h column hcolumn
    rw [hd]
    exact .ok _

/-- With a distribution for every column and a row for every pick, nothing is out of range. -/
theorem mergeRow_neverInternal {matcher : ColumnMatcher} {distributions : List Distribution}
    {seed : String} {passThrough : Bool} {change? : Nat → Nat → Option Event}
    (hcolumns : ∀ e c, matcher.find? e = some c → ∃ d, distributions[c]? = some d)
    (hrows : ∀ e c r, matcher.select distributions seed e = .ok (some (c, r)) →
      change? c r ≠ none) :
    Labeling.NeverInternal (matcher.mergeRow distributions seed passThrough change?) := by
  intro e fault s h
  obtain ⟨-, hselect | hfault | ⟨c, r, hselect, hrow, -⟩⟩ := mergeRow_eq_error h
  · exact select_neverInternal (hcolumns e) seed fault hselect
  · cases hfault
  · exact hrows e c r hselect hrow

end ColumnMatcher

namespace Matrix

/-- Every column that an event may belong to has a distribution, which picks one of the rows. -/
def InRange (m : Matrix) : Prop :=
  ∀ e c, m.matcher.find? e = some c →
    ∃ d, m.distributions[c]? = some d ∧ ∀ seed, d.pick seed < m.rows.length

theorem inRange_of_build {m : MatrixSpec} {built : Matrix} (h : m.build = .ok built) :
    built.InRange := by
  obtain ⟨-, -, -, matcher, hmatcher, distributions, hdistributions, rfl⟩ :=
    MatrixSpec.build_eq_ok.1 h
  intro e c hc
  have hall := forall₂_of_mapM hdistributions
  have hlt : c < distributions.length := by
    rw [← hall.length_eq, List.length_range]
    exact ColumnMatcher.find_lt hmatcher hc
  refine ⟨distributions[c], List.getElem?_eq_getElem hlt, fun seed => ?_⟩
  have hd := hall.get (by rw [hall.length_eq]; exact hlt) hlt
  have hpick := Distribution.pick_lt hd seed
  rw [MatrixSpec.column, List.length_map, List.length_range] at hpick
  exact hpick

theorem update_neverInternal {m : Matrix} (hm : m.InRange) : m.update.NeverInternal := by
  refine ColumnMatcher.mergeRow_neverInternal (fun e c hc => ?_) fun e c r hselect hrow => ?_
  · obtain ⟨d, hd, -⟩ := hm e c hc
    exact ⟨d, hd⟩
  · obtain ⟨hc, d, s, hd, rfl⟩ := ColumnMatcher.select_eq_some hselect
    obtain ⟨d', hd', hpick⟩ := hm e c hc
    obtain rfl : d' = d := Option.some.inj (hd'.symm.trans hd)
    exact Nat.not_lt.2 (List.getElem?_eq_none_iff.1 hrow) (hpick s)

end Matrix

namespace SparseMatrix

/-- Every column that an event may belong to has a distribution, which picks one of its rows. -/
def InRange (m : SparseMatrix) : Prop :=
  ∀ e c, m.matcher.find? e = some c →
    ∃ d rows, m.distributions[c]? = some d ∧ m.rows[c]? = some rows ∧
      ∀ seed, d.pick seed < rows.length

theorem inRange_of_build {m : SparseMatrixSpec} {built : SparseMatrix} (h : m.build = .ok built) :
    built.InRange := by
  obtain ⟨-, attributes, hattributes, matcher, hmatcher, distributions, hdistributions, rfl⟩ :=
    SparseMatrixSpec.build_eq_ok.1 h
  obtain ⟨hsame, hsizes⟩ := SparseColumnSpec.checkAll_eq_ok.1 hattributes
  have hlen : attributes.length = m.columns.length := by
    simpa using (congrArg List.length hsame).symm
  intro e c hc
  have hall := forall₂_of_mapM hdistributions
  have hlt : c < m.columns.length := by
    rw [← hlen]
    exact ColumnMatcher.find_lt hmatcher hc
  have hlt' : c < distributions.length := hall.length_eq ▸ hlt
  refine ⟨distributions[c], m.columns[c].rows, List.getElem?_eq_getElem hlt', ?_, fun seed => ?_⟩
  · simp [List.getElem?_eq_getElem hlt]
  · have hpick := Distribution.pick_lt (hall.get hlt hlt') seed
    rw [List.length_map] at hpick
    rw [(hsizes m.columns[c] (List.getElem_mem hlt)).2]
    exact hpick

theorem update_neverInternal {m : SparseMatrix} (hm : m.InRange) : m.update.NeverInternal := by
  refine ColumnMatcher.mergeRow_neverInternal (fun e c hc => ?_) fun e c r hselect hrow => ?_
  · obtain ⟨d, -, hd, -⟩ := hm e c hc
    exact ⟨d, hd⟩
  · obtain ⟨hc, d, s, hd, rfl⟩ := ColumnMatcher.select_eq_some hselect
    obtain ⟨d', rows, hd', hrows, hpick⟩ := hm e c hc
    obtain rfl : d' = d := Option.some.inj (hd'.symm.trans hd)
    rw [hrows, Option.bind_some] at hrow
    exact Nat.not_lt.2 (List.getElem?_eq_none_iff.1 hrow) (hpick s)

end SparseMatrix

namespace ConditionalMerge

/-- Every condition that an event may match has an update. -/
def InRange (m : ConditionalMerge) : Prop :=
  ∀ e i, firstMatch m.conditions e = some i → i < m.updates.length

theorem inRange_of_build {m : ConditionalMergeSpec} {built : ConditionalMerge}
    (h : m.build = .ok built) : built.InRange := by
  unfold ConditionalMergeSpec.build at h
  split_ifs at h
  · exact (invalidModel_ne_ok h).elim
  · simp only [bind_eq_ok, pure_eq_ok] at h
    obtain ⟨cases, -, rfl⟩ := h
    intro e i hi
    simpa using firstMatch_lt hi

theorem update_neverInternal {m : ConditionalMerge} (hm : m.InRange) :
    m.update.NeverInternal := by
  intro e fault s h
  obtain ⟨-, hfault | ⟨i, hi, hnone, -⟩⟩ := update_eq_error h
  · cases hfault
  · exact Nat.not_lt.2 (List.getElem?_eq_none_iff.1 hnone) (hm e i hi)

end ConditionalMerge

theorem ConditionalAssignment.update_neverInternal {a : ConditionalAssignment}
    (h : ∀ b ∈ a.assignments, b.target.kind = b.source.kind) : a.update.NeverInternal := by
  intro e fault s hs
  obtain ⟨e', he'⟩ := exists_update h e
  rw [he'] at hs
  cases hs

theorem Shredder.update_neverInternal {d : Shredder}
    (h : ∀ hash e, ∃ e', Writes d.target (.uint64 hash) e e') : d.update.NeverInternal := by
  intro e fault s hs
  obtain ⟨-, _, hfault⟩ | ⟨hash, hwrite⟩ := updateBy_eq_error hs
  · cases hfault
  · obtain ⟨e', -, hok⟩ := h hash e
    rw [hok] at hwrite
    cases hwrite

end VirtualPeople
