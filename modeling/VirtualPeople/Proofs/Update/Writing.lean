import VirtualPeople.Proofs.Multiplicity.Expanding
import VirtualPeople.Proofs.Outcome
import VirtualPeople.Proofs.Record.Lenses
import VirtualPeople.Update.ConditionalAssignment
import VirtualPeople.Update.ConditionalMerge
import VirtualPeople.Update.Matrix
import VirtualPeople.Update.Shredder
import Mathlib.Tactic.SplitIfs

/-!
# The steps of updates

How an update ends, by what it looks up, reads and writes. Matrices and merges merge one of their
events, or fail before they change anything. Assignments and shredders write values to fields, and
such a write may be refused, which leaves the messages around the field created; it is not if the
value has the kind of the field (`Assignment.exists_run`, `Shredder.exists_write`), and building
sees to that.
-/

namespace VirtualPeople

/-- The event that labeling leaves, whether it succeeds or fails. -/
def Labeling.leaves (label : Labeling) (e : Event) : Event :=
  match label e with
  | .ok () e' => e'
  | .error _ e' => e'

namespace Labeling

variable {label label' : Labeling} {e e' : Event} {err : Error}

theorem leaves_of_ok (h : label e = .ok () e') : label.leaves e = e' := by
  unfold leaves
  rw [h]

theorem leaves_of_error (h : label e = .error err e') : label.leaves e = e' := by
  unfold leaves
  rw [h]

theorem leaves_congr (h : label e = label' e) : label.leaves e = label'.leaves e := by
  unfold leaves
  rw [h]

end Labeling

/-- A value of the kind of a field is written to it. -/
def Writes (f : ScalarField Schema.event.fields) (value : Value) (e e' : Event) : Prop :=
  value.kind = f.kind ∧ (Field.scalar f).write Schema.event.name value e = .ok () e'

theorem writes_put (f : ScalarField Schema.event.fields) (v : f.kind.Carrier) (e : Event) :
    Writes f (.of f.kind v) e (f.put v e) :=
  ⟨Value.kind_of f.kind v, Field.write_of f Schema.event.name v e⟩

theorem Multiplicity.writes_setPersonIndex (m : Multiplicity) {index : Nat} {e e' : Event}
    (h : m.setPersonIndex index e = .ok e') :
    ∃ v, m.number index = some v ∧ Writes m.personIndex (.of m.personIndex.kind v) e e' := by
  obtain ⟨v, hv, rfl⟩ := setPersonIndex_eq_ok.1 h
  exact ⟨v, hv, writes_put m.personIndex v e⟩

variable {e e' : Event} {err : Error}

theorem Labeling.unmatched_eq_ok {passThrough : Bool} {fault : EventFault}
    (h : Labeling.unmatched passThrough fault e = .ok () e') : e' = e := by
  unfold unmatched at h
  split_ifs at h
  cases h
  rfl

theorem Labeling.unmatched_eq_error {passThrough : Bool} {fault : EventFault}
    (h : Labeling.unmatched passThrough fault e = .error err e') :
    err = .invalidEvent fault ∧ e' = e := by
  unfold unmatched at h
  split_ifs at h
  cases h
  exact ⟨rfl, rfl⟩

namespace ColumnMatcher

variable {matcher : ColumnMatcher} {rows : List Distribution} {seed : String} {passThrough : Bool}
  {change? : Nat → Nat → Option Event}

/-- Only what stands in the column and row that are selected counts. -/
theorem mergeRow_congr {change?' : Nat → Nat → Option Event}
    (h : ∀ column row, matcher.select rows seed e = .ok (some (column, row)) →
      change? column row = change?' column row) :
    matcher.mergeRow rows seed passThrough change? e =
      matcher.mergeRow rows seed passThrough change?' e := by
  unfold mergeRow
  rcases hselect : matcher.select rows seed e with err | _ | ⟨column, row⟩
  · simp only
  · simp only
  · simp only [h column row hselect]

theorem mergeRow_eq_ok (h : matcher.mergeRow rows seed passThrough change? e = .ok () e') :
    e' = e ∨ ∃ column row change, change? column row = some change ∧ e' = e.merge change := by
  unfold mergeRow at h
  split at h
  · cases h
  · exact .inl (Labeling.unmatched_eq_ok h)
  · split at h
    · cases h
      exact .inr ⟨_, _, _, ‹_›, rfl⟩
    · cases h

theorem mergeRow_eq_error (h : matcher.mergeRow rows seed passThrough change? e = .error err e') :
    e' = e ∧ (matcher.select rows seed e = .error err ∨ err = .invalidEvent .noColumnMatches ∨
      ∃ column row, matcher.select rows seed e = .ok (some (column, row)) ∧
        change? column row = none ∧ err = .internal .rowRange) := by
  unfold mergeRow at h
  split at h
  · cases h
    exact ⟨rfl, .inl ‹_›⟩
  · obtain ⟨herr, hsame⟩ := Labeling.unmatched_eq_error h
    exact ⟨hsame, .inr (.inl herr)⟩
  · split at h
    · cases h
    · cases h
      exact ⟨rfl, .inr (.inr ⟨_, _, ‹_›, ‹_›, rfl⟩)⟩

end ColumnMatcher

namespace ConditionalMerge

variable {m : ConditionalMerge}

theorem update_eq_ok (h : m.update e = .ok () e') :
    e' = e ∨ ∃ change ∈ m.updates, e' = e.merge change := by
  unfold update at h
  split at h
  · exact .inl (Labeling.unmatched_eq_ok h)
  · split at h
    · cases h
      exact .inr ⟨_, List.mem_of_getElem? ‹_›, rfl⟩
    · cases h

theorem update_eq_error (h : m.update e = .error err e') :
    e' = e ∧ (err = .invalidEvent .noNodeMatches ∨ ∃ i, firstMatch m.conditions e = some i ∧
      m.updates[i]? = none ∧ err = .internal .choiceRange) := by
  unfold update at h
  split at h
  · obtain ⟨herr, hsame⟩ := Labeling.unmatched_eq_error h
    exact ⟨hsame, .inl herr⟩
  · split at h
    · cases h
    · cases h
      exact ⟨rfl, .inr ⟨_, ‹_›, ‹_›, rfl⟩⟩

end ConditionalMerge

namespace Assignment

variable {a : Assignment} {v : Value}

theorem run_of_none (h : a.source.get? e = none) : a.run e = .ok () e := by
  unfold run
  rw [h]

theorem run_of_some (h : a.source.get? e = some v) :
    a.run e = (Field.scalar a.target).write Schema.event.name v e := by
  unfold run
  rw [h]

theorem run_of_stored {c : a.target.kind.Carrier} (h : a.source.get? e = some v)
    (hc : v.as? a.target.kind = some c) : a.run e = .ok () (a.target.put c e) :=
  (run_of_some h).trans (Field.write_eq_ok.2 ⟨c, hc, rfl⟩)

/-- What a run writes, if it writes anything. -/
theorem run_eq_ok (h : a.run e = .ok () e') :
    a.source.get? e = none ∧ e' = e ∨ ∃ v c, a.source.get? e = some v ∧
      v.as? a.target.kind = some c ∧ e' = a.target.put c e := by
  rcases hread : a.source.get? e with _ | v
  · rw [run_of_none hread] at h
    cases h
    exact .inl ⟨rfl, rfl⟩
  · rw [run_of_some hread] at h
    obtain ⟨c, hc, rfl⟩ := Field.write_eq_ok.1 h
    exact .inr ⟨v, c, rfl, hc, rfl⟩

/-- The first of the assignments runs, and then the others. -/
theorem runAll_cons {rest : List Assignment} (h : runAll (a :: rest) e = .ok () e') :
    ∃ s, a.run e = .ok () s ∧ runAll rest s = .ok () e' := by
  simp only [runAll] at h
  split at h
  · exact ⟨_, ‹_›, h⟩
  · cases h

/-- What is read is written, if the fields are of one kind. -/
theorem exists_write (hkind : a.target.kind = a.source.kind) (h : a.source.get? e = some v) :
    ∃ e', a.run e = .ok () e' ∧ Writes a.target v e e' := by
  obtain ⟨c, -, rfl⟩ := ScalarField.as?_of_get? hkind h
  have hwrites := writes_put a.target c e
  exact ⟨_, (run_of_some h).trans hwrites.2, hwrites⟩

/-- An assignment between fields of one kind does not fail. -/
theorem exists_run (hkind : a.target.kind = a.source.kind) (e : Event) :
    ∃ e', a.run e = .ok () e' := by
  rcases h : a.source.get? e with _ | v
  · exact ⟨e, run_of_none h⟩
  · obtain ⟨e', hrun, -⟩ := exists_write hkind h
    exact ⟨e', hrun⟩

/-- So a line of them does not either. -/
theorem exists_runAll : ∀ {assignments : List Assignment},
    (∀ a ∈ assignments, a.target.kind = a.source.kind) → ∀ e, ∃ e', runAll assignments e = .ok () e'
  | [], _, e => ⟨e, rfl⟩
  | _ :: rest, h, e => by
    obtain ⟨hkind, hrest⟩ := List.forall_mem_cons.1 h
    obtain ⟨s, hs⟩ := exists_run hkind e
    obtain ⟨e', he'⟩ := exists_runAll hrest s
    refine ⟨e', ?_⟩
    simp only [runAll, hs]
    exact he'

end Assignment

namespace ConditionalAssignment

variable {a : ConditionalAssignment}

theorem update_of_holds (h : a.condition.holds e) :
    a.update e = Assignment.runAll a.assignments e :=
  if_pos h

theorem update_of_not_holds (h : ¬ a.condition.holds e) : a.update e = .ok () e := if_neg h

theorem exists_update (h : ∀ b ∈ a.assignments, b.target.kind = b.source.kind) (e : Event) :
    ∃ e', a.update e = .ok () e' := by
  by_cases hholds : a.condition.holds e
  · rw [update_of_holds hholds]
    exact Assignment.exists_runAll h e
  · exact ⟨e, update_of_not_holds hholds⟩

end ConditionalAssignment

namespace ScalarField

theorem word?_eq_some {fs : Fields} {f : ScalarField fs} {r : fs.Record} {w : UInt64} :
    f.word? r = some w ↔ f.get? r = some (.uint64 w) := by
  unfold word?
  split
  · rename_i v hv
    simp [hv]
  · rename_i hnot
    exact iff_of_false nofun fun h => hnot w h

end ScalarField

namespace Shredder

variable {ln : Float → Float} {s : Shredder}

theorem stepsBy_eq_error (h : s.stepsBy ln e = .error err) :
    err = .invalidEvent .randomnessUnset := by
  unfold stepsBy at h
  split at h
  · cases h
  · split at h
    · exact (Except.error.inj h).symm
    · split at h
      · cases h
      · cases h

/-- A fingerprint is written to a target for words. -/
theorem exists_write (hkind : s.target.kind = .uint64) (hash : UInt64) (e : Event) :
    ∃ e', Writes s.target (.uint64 hash) e e' := by
  obtain ⟨psi, randomness, ⟨text, k, p⟩, seed⟩ := s
  cases hkind
  exact ⟨_, writes_put ⟨text, .uint64, p⟩ hash e⟩

/-- What a shredder makes of an event. -/
theorem updateBy_eq_ok : s.updateBy ln e = .ok () e' ↔ ∃ steps, s.stepsBy ln e = .ok steps ∧
    (steps = 0 ∧ e' = e ∨ steps ≠ 0 ∧ ∃ target, s.target.word? e = some target ∧
      (Field.scalar s.target).write Schema.event.name
        (.uint64 (fingerprint (key target steps s.seed))) e = .ok () e') := by
  unfold updateBy
  rcases s.stepsBy ln e with err | steps
  · simp
  · by_cases hzero : steps = 0
    · simp [hzero, eq_comm]
    · rcases s.target.word? e with _ | target
      · simp [hzero]
      · simp [hzero]

theorem updateBy_eq_error (h : s.updateBy ln e = .error err e') :
    e' = e ∧ (∃ fault, err = .invalidEvent fault) ∨
      ∃ hash, (Field.scalar s.target).write Schema.event.name (.uint64 hash) e = .error err e' := by
  unfold updateBy at h
  split at h
  · rename_i hsteps
    cases h
    exact .inl ⟨rfl, _, stepsBy_eq_error hsteps⟩
  · split_ifs at h
    split at h
    · cases h
      exact .inl ⟨rfl, _, rfl⟩
    · exact .inr ⟨_, h⟩

theorem writes_update (hkind : s.target.kind = .uint64) (h : s.update e = .ok () e') :
    e' = e ∨ ∃ hash, Writes s.target (.uint64 hash) e e' := by
  obtain ⟨_, -, ⟨-, rfl⟩ | ⟨-, _, -, hwrite⟩⟩ := updateBy_eq_ok.1 h
  · exact .inl rfl
  · exact .inr ⟨_, hkind.symm, hwrite⟩

end Shredder

end VirtualPeople
