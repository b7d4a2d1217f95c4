import Mathlib.Tactic.SplitIfs
import VirtualPeople.Proofs.Outcome
import VirtualPeople.Update.ConditionalAssignment
import VirtualPeople.Update.Matrix
import VirtualPeople.Update.Shredder

/-!
# What building checks of an update

A matrix is built if its sizes are right, its columns make a matcher, and the probabilities of every
column make a distribution. The two fields of an assignment are scalars of one kind, and those of a
shredder are words.
-/

namespace VirtualPeople

theorem MatrixSpec.build_eq_ok {m : MatrixSpec} {built : Matrix} : m.build = .ok built ↔
    m.rows ≠ [] ∧ m.columns ≠ [] ∧
      m.probabilities.length = m.rows.length * m.columns.length ∧
      ∃ matcher, ColumnMatcher.build m.columns m.mask = .ok matcher ∧ ∃ distributions,
        (List.range m.columns.length).mapM (fun c => Distribution.ofWeights (m.column c)) =
          .ok distributions ∧
        ⟨matcher, distributions, m.seed.getD "", m.rows, m.passThrough.getD false⟩ = built := by
  unfold build
  split_ifs with hrows hcolumns hsize
  · simp [List.isEmpty_iff.1 hrows]
  · simp [List.isEmpty_iff.1 hcolumns]
  · simp [hsize]
  · rw [List.isEmpty_iff] at hrows hcolumns
    simp only [bind_eq_ok, pure_eq_ok, ne_eq, hrows, hcolumns, not_not.1 hsize, not_false_eq_true,
      true_and]

namespace SparseColumnSpec

theorem check_eq_ok {place : Nat} {c : SparseColumnSpec} {attributes : Event} :
    c.check place = .ok attributes ↔
      c.attributes = some attributes ∧ c.rows ≠ [] ∧ c.rows.length = c.probabilities.length := by
  unfold check
  rcases c.attributes with _ | e
  · simp
  · simp only [Option.some.injEq]
    split_ifs with hempty hlength
    · simp [List.isEmpty_iff.1 hempty]
    · simp [hlength]
    · have hrows : c.rows ≠ [] := fun h => hempty (List.isEmpty_iff.2 h)
      exact pure_eq_ok.trans (iff_self_and.2 fun _ => ⟨hrows, Decidable.not_not.1 hlength⟩)

/-- Columns pass the check if each has rows and a probability for each of them. -/
theorem checkAll_eq_ok : ∀ {columns : List SparseColumnSpec} {place : Nat}
    {attributes : List Event}, checkAll place columns = .ok attributes ↔
      columns.map (·.attributes) = attributes.map some ∧
        ∀ c ∈ columns, c.rows ≠ [] ∧ c.rows.length = c.probabilities.length
  | [], _, attributes => by
    rw [checkAll, pure_eq_ok]
    cases attributes with
    | nil => simp
    | cons first others => simp
  | c :: rest, place, attributes => by
    simp only [checkAll, bind_eq_ok, pure_eq_ok, check_eq_ok, checkAll_eq_ok,
      List.forall_mem_cons, List.map_cons]
    constructor
    · rintro ⟨first, ⟨hfirst, hsizes⟩, others, ⟨hothers, hrest⟩, rfl⟩
      exact ⟨by rw [hfirst, hothers, List.map_cons], hsizes, hrest⟩
    · rintro ⟨hattributes, hsizes, hrest⟩
      rcases attributes with _ | ⟨first, others⟩
      · cases hattributes
      · obtain ⟨hfirst, hothers⟩ := List.cons.inj hattributes
        exact ⟨first, ⟨hfirst, hsizes⟩, others, ⟨hothers, hrest⟩, rfl⟩

end SparseColumnSpec

theorem SparseMatrixSpec.build_eq_ok {m : SparseMatrixSpec} {built : SparseMatrix} :
    m.build = .ok built ↔ m.columns ≠ [] ∧
      ∃ attributes, SparseColumnSpec.checkAll 0 m.columns = .ok attributes ∧
      ∃ matcher, ColumnMatcher.build attributes m.mask = .ok matcher ∧ ∃ distributions,
        m.columns.mapM (fun c => Distribution.ofWeights (c.probabilities.map widen)) =
          .ok distributions ∧
        ⟨matcher, distributions, m.seed.getD "", m.columns.map (·.rows),
          m.passThrough.getD false⟩ = built := by
  unfold build
  split_ifs with hcolumns
  · simp [List.isEmpty_iff.1 hcolumns]
  · rw [List.isEmpty_iff] at hcolumns
    simp only [bind_eq_ok, pure_eq_ok, ne_eq, hcolumns, not_false_eq_true, true_and]

theorem AssignmentSpec.pair_eq_ok {source target : Field Schema.event.fields} {a : Assignment} :
    pair source target = .ok a ↔ source = .scalar a.source ∧ target = .scalar a.target ∧
      a.target.kind = a.source.kind ∧ a.source.kind.isAssignable := by
  constructor
  · intro h
    unfold pair at h
    split at h
    · split_ifs at h with hkind hassignable
      · obtain rfl := pure_eq_ok.1 h
        exact ⟨rfl, rfl, hkind, hassignable⟩
      · exact (invalidModel_ne_ok h).elim
      · exact (invalidModel_ne_ok h).elim
    · exact (invalidModel_ne_ok h).elim
    · exact (invalidModel_ne_ok h).elim
  · rintro ⟨rfl, rfl, hkind, hassignable⟩
    simp [pair, hkind, hassignable]

theorem AssignmentSpec.kind_of_build {s : AssignmentSpec} {a : Assignment}
    (h : s.build = .ok a) : a.target.kind = a.source.kind := by
  unfold build at h
  split at h
  · exact (invalidModel_ne_ok h).elim
  · exact (invalidModel_ne_ok h).elim
  · simp only [bind_eq_ok] at h
    obtain ⟨_, -, _, -, hpair⟩ := h
    exact (pair_eq_ok.1 hpair).2.2.1

theorem ConditionalAssignmentSpec.kinds_of_build {s : ConditionalAssignmentSpec}
    {built : ConditionalAssignment} (h : s.build = .ok built) :
    ∀ a ∈ built.assignments, a.target.kind = a.source.kind := by
  unfold build at h
  split at h
  · exact (invalidModel_ne_ok h).elim
  · split_ifs at h
    · exact (invalidModel_ne_ok h).elim
    · simp only [bind_eq_ok, pure_eq_ok] at h
      obtain ⟨_, -, assignments, hassignments, rfl⟩ := h
      intro a ha
      obtain ⟨s, -, hs⟩ := (mem_of_mapM hassignments a).1 ha
      exact AssignmentSpec.kind_of_build hs

namespace ShredderSpec

theorem kind_of_wordField {role : String} {text : Option String}
    {f : ScalarField Schema.event.fields} (h : wordField role text = .ok f) :
    f.kind = .uint64 := by
  unfold wordField at h
  split at h
  · exact (invalidModel_ne_ok h).elim
  · obtain ⟨field, -, h⟩ := bind_eq_ok.1 h
    split at h
    · split_ifs at h with hkind
      · obtain rfl := pure_eq_ok.1 h
        exact hkind
      · exact (invalidModel_ne_ok h).elim
    · exact (invalidModel_ne_ok h).elim

theorem build_eq_ok {spec : ShredderSpec} {s : Shredder} :
    spec.build = .ok s ↔ (0.0 ≤ widen s.psi ∧ widen s.psi ≤ 1.0) ∧ spec.psi.getD 0 = s.psi ∧
      wordField "randomness_field" spec.randomness = .ok s.randomness ∧
      wordField "target_field" spec.target = .ok s.target ∧ spec.seed.getD "" = s.seed := by
  unfold build
  simp only [Bool.and_eq_true, decide_eq_true_eq]
  split_ifs with hrange
  · simp only [bind_eq_ok, pure_eq_ok]
    constructor
    · rintro ⟨randomness, hrandomness, target, htarget, rfl⟩
      exact ⟨hrange, rfl, hrandomness, htarget, rfl⟩
    · rintro ⟨-, hpsi, hrandomness, htarget, hseed⟩
      exact ⟨_, hrandomness, _, htarget, by rw [hpsi, hseed]⟩
  · refine iff_of_false invalidModel_ne_ok ?_
    rintro ⟨hmem, hpsi, -⟩
    rw [← hpsi] at hmem
    exact hrange hmem

theorem kind_of_build {spec : ShredderSpec} {s : Shredder} (h : spec.build = .ok s) :
    s.target.kind = .uint64 := by
  obtain ⟨-, -, -, htarget, -⟩ := build_eq_ok.1 h
  exact kind_of_wordField htarget

end ShredderSpec

end VirtualPeople
