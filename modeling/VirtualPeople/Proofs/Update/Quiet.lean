import Mathlib.Tactic.SplitIfs
import VirtualPeople.Proofs.Record.Frame
import VirtualPeople.Proofs.Update.Building
import VirtualPeople.Proofs.Update.Writing

/-!
# Updates without activities

An update that carries no activities is quiet, and leaves those of an event as they are. What is
built of a quiet description is quiet.
-/

namespace VirtualPeople

/-- An event that carries no activities. -/
def Quiet (e : Event) : Prop := Event.activities e = []

theorem activities_merge_quiet {change : Event} (h : Quiet change) (e : Event) :
    Event.activities (e.merge change) = Event.activities e := by
  rw [Event.activities_merge, h, List.append_nil]

def MatrixSpec.Quiet (m : MatrixSpec) : Prop := ∀ row ∈ m.rows, VirtualPeople.Quiet row

def Matrix.Quiet (m : Matrix) : Prop := ∀ row ∈ m.rows, VirtualPeople.Quiet row

theorem MatrixSpec.build_quiet {m : MatrixSpec} {built : Matrix} (hq : m.Quiet)
    (h : m.build = .ok built) : built.Quiet := by
  obtain ⟨-, -, -, matcher, -, distributions, -, rfl⟩ := MatrixSpec.build_eq_ok.1 h
  exact hq

/-- Merging rows that carry no activities leaves those of an event, and so does failing. -/
theorem ColumnMatcher.activities_mergeRow {matcher : ColumnMatcher} {rows : List Distribution}
    {seed : String} {passThrough : Bool} {change? : Nat → Nat → Option Event}
    (hq : ∀ column row change, change? column row = some change → VirtualPeople.Quiet change)
    (e : Event) :
    Event.activities ((matcher.mergeRow rows seed passThrough change?).leaves e) =
      Event.activities e := by
  rcases h : matcher.mergeRow rows seed passThrough change? e with ⟨⟨⟩, e'⟩ | ⟨err, e'⟩
  · rw [Labeling.leaves_of_ok h]
    obtain rfl | ⟨column, row, change, hchange, rfl⟩ := mergeRow_eq_ok h
    · rfl
    · exact activities_merge_quiet (hq column row change hchange) e
  · rw [Labeling.leaves_of_error h, (mergeRow_eq_error h).1]

theorem Matrix.activities_update {m : Matrix} (hq : m.Quiet) (e : Event) :
    Event.activities (m.update.leaves e) = Event.activities e :=
  ColumnMatcher.activities_mergeRow
    (fun _ _ change hrow => hq change (List.mem_of_getElem? hrow)) e

def SparseMatrixSpec.Quiet (m : SparseMatrixSpec) : Prop :=
  ∀ c ∈ m.columns, ∀ row ∈ c.rows, VirtualPeople.Quiet row

def SparseMatrix.Quiet (m : SparseMatrix) : Prop :=
  ∀ rows ∈ m.rows, ∀ row ∈ rows, VirtualPeople.Quiet row

theorem SparseMatrixSpec.build_quiet {m : SparseMatrixSpec} {built : SparseMatrix} (hq : m.Quiet)
    (h : m.build = .ok built) : built.Quiet := by
  obtain ⟨-, attributes, -, matcher, -, distributions, -, rfl⟩ := SparseMatrixSpec.build_eq_ok.1 h
  intro rows hrows
  obtain ⟨c, hc, rfl⟩ := List.mem_map.1 hrows
  exact hq c hc

theorem SparseMatrix.activities_update {m : SparseMatrix} (hq : m.Quiet) (e : Event) :
    Event.activities (m.update.leaves e) = Event.activities e := by
  refine ColumnMatcher.activities_mergeRow (fun _ _ change hrow => ?_) e
  obtain ⟨rows, hrows, hrow⟩ := Option.bind_eq_some_iff.1 hrow
  exact hq rows (List.mem_of_getElem? hrows) change (List.mem_of_getElem? hrow)

def ConditionalMergeSpec.Quiet (m : ConditionalMergeSpec) : Prop :=
  ∀ c ∈ m.cases, ∀ change, c.update = some change → VirtualPeople.Quiet change

def ConditionalMerge.Quiet (m : ConditionalMerge) : Prop :=
  ∀ change ∈ m.updates, VirtualPeople.Quiet change

theorem MergeCaseSpec.build_eq_ok {place : Nat} {c : MergeCaseSpec}
    {built : Filter Schema.event.fields × Event} (h : c.build place = .ok built) :
    c.update = some built.2 := by
  unfold MergeCaseSpec.build at h
  split at h
  · exact (invalidModel_ne_ok h).elim
  · exact (invalidModel_ne_ok h).elim
  · simp only [bind_eq_ok, pure_eq_ok] at h
    obtain ⟨condition, -, rfl⟩ := h
    assumption

theorem MergeCaseSpec.updates_buildAll :
    ∀ {cases : List MergeCaseSpec} {place : Nat}
      {built : List (Filter Schema.event.fields × Event)}, buildAll place cases = .ok built →
      ∀ b ∈ built, ∃ c ∈ cases, c.update = some b.2
  | [], place, built, h => by
    cases h
    simp
  | c :: rest, place, built, h => by
    simp only [buildAll, bind_eq_ok, pure_eq_ok] at h
    obtain ⟨first, hfirst, others, hothers, rfl⟩ := h
    intro b hb
    rcases List.mem_cons.1 hb with rfl | hb
    · exact ⟨c, List.mem_cons_self, build_eq_ok hfirst⟩
    · obtain ⟨c', hc', hu⟩ := updates_buildAll hothers b hb
      exact ⟨c', List.mem_cons_of_mem c hc', hu⟩

theorem ConditionalMergeSpec.build_quiet {m : ConditionalMergeSpec} {built : ConditionalMerge}
    (hq : m.Quiet) (h : m.build = .ok built) : built.Quiet := by
  unfold ConditionalMergeSpec.build at h
  split_ifs at h
  · exact (invalidModel_ne_ok h).elim
  · simp only [bind_eq_ok, pure_eq_ok] at h
    obtain ⟨all, hall, rfl⟩ := h
    intro change hchange
    obtain ⟨b, hb, rfl⟩ := List.mem_map.1 hchange
    obtain ⟨c, hc, hu⟩ := MergeCaseSpec.updates_buildAll hall b hb
    exact hq c hc b.2 hu

theorem ConditionalMerge.activities_update {m : ConditionalMerge} (hq : m.Quiet) (e : Event) :
    Event.activities (m.update.leaves e) = Event.activities e := by
  rcases h : m.update e with ⟨⟨⟩, e'⟩ | ⟨err, e'⟩
  · rw [Labeling.leaves_of_ok h]
    obtain rfl | ⟨change, hmem, rfl⟩ := update_eq_ok h
    · rfl
    · exact activities_merge_quiet (hq change hmem) e
  · rw [Labeling.leaves_of_error h, (update_eq_error h).1]

/-- A write leaves the activities as they are, whether it is refused or not. -/
theorem activities_write (f : ScalarField Schema.event.fields) (v : Value) (e : Event) :
    Event.activities (Labeling.leaves ((Field.scalar f).write Schema.event.name v) e) =
      Event.activities e := by
  rcases h : (Field.scalar f).write Schema.event.name v e with ⟨⟨⟩, e'⟩ | ⟨err, e'⟩
  · obtain ⟨c, -, rfl⟩ := Field.write_eq_ok.1 h
    rw [Labeling.leaves_of_ok h]
    exact Event.activities_set f.path (some c) e
  · obtain ⟨-, -, rfl⟩ := Field.write_eq_error.1 h
    rw [Labeling.leaves_of_error h]
    exact Event.activities_enclose f.path e

theorem Assignment.activities_run (a : Assignment) (e : Event) :
    Event.activities (a.run.leaves e) = Event.activities e := by
  rcases h : a.source.get? e with _ | v
  · rw [Labeling.leaves_of_ok (run_of_none h)]
  · rw [← activities_write a.target v e, Labeling.leaves_congr (run_of_some h)]

theorem Assignment.activities_runAll : ∀ (assignments : List Assignment) (e : Event),
    Event.activities (Labeling.leaves (runAll assignments) e) = Event.activities e
  | [], _ => rfl
  | a :: rest, e => by
    have hrun := activities_run a e
    rcases h : a.run e with ⟨⟨⟩, s⟩ | ⟨err, s⟩
    · rw [Labeling.leaves_of_ok h] at hrun
      rw [← hrun, ← activities_runAll rest s]
      simp only [Labeling.leaves, runAll, h]
    · rw [Labeling.leaves_of_error h] at hrun
      rw [← hrun]
      simp only [Labeling.leaves, runAll, h]

theorem ConditionalAssignment.activities_update (a : ConditionalAssignment) (e : Event) :
    Event.activities (a.update.leaves e) = Event.activities e := by
  by_cases h : a.condition.holds e
  · rw [Labeling.leaves_congr (update_of_holds h)]
    exact Assignment.activities_runAll a.assignments e
  · rw [Labeling.leaves_of_ok (update_of_not_holds h)]

theorem Shredder.activities_update (s : Shredder) (e : Event) :
    Event.activities (s.update.leaves e) = Event.activities e := by
  rcases h : s.update e with ⟨⟨⟩, e'⟩ | ⟨err, e'⟩
  · rw [Labeling.leaves_of_ok h]
    obtain ⟨_, -, ⟨-, rfl⟩ | ⟨-, _, -, hwrite⟩⟩ := updateBy_eq_ok.1 h
    · rfl
    · rw [← Labeling.leaves_of_ok hwrite]
      exact activities_write s.target _ e
  · rw [Labeling.leaves_of_error h]
    obtain ⟨rfl, -⟩ | ⟨_, hwrite⟩ := updateBy_eq_error h
    · rfl
    · rw [← Labeling.leaves_of_error hwrite]
      exact activities_write s.target _ e

end VirtualPeople
