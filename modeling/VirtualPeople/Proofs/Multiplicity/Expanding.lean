import VirtualPeople.Model.Node
import VirtualPeople.Proofs.Outcome
import VirtualPeople.Proofs.Record.Frame

/-!
# Expanding an event

One copy is the event itself with the first number written to it; of any other count, the copies
are made and labeled one by one.
-/

namespace VirtualPeople.Multiplicity

variable {m : Multiplicity} {label : Labeling} {e e' : Event} {index copies : Nat}

/-- The number of a copy as the field that counts copies holds it. -/
def number (m : Multiplicity) (index : Nat) : Option m.personIndex.kind.Carrier :=
  if index < 1 <<< 63 then m.personIndex.kind.ofInt? index else none

theorem setPersonIndex_eq_ok :
    m.setPersonIndex index e = .ok e' ↔
      ∃ v, m.number index = some v ∧ m.personIndex.path.set (some v) e = e' := by
  have hnumber : (if index < 1 <<< 63 then m.personIndex.kind.ofInt? index else none)
      = m.number index := rfl
  rw [setPersonIndex, hnumber]
  rcases m.number index with _ | v
  · simp
  · simp [ScalarField.put]

theorem activities_setPersonIndex (h : m.setPersonIndex index e = .ok e') :
    Event.activities e' = Event.activities e := by
  obtain ⟨v, -, rfl⟩ := setPersonIndex_eq_ok.1 h
  exact Event.activities_set m.personIndex.path (some v) e

theorem activities_clone (h : m.clone e index = .ok e') :
    Event.activities e' = Event.activities e := by
  unfold clone at h
  rw [activities_setPersonIndex h, Event.activities_withFingerprint]

theorem expand_one_eq_ok (h : m.count e = .ok 1) :
    m.expand label e = .ok () e' ↔
      ∃ first, m.setPersonIndex 0 e = .ok first ∧ label first = .ok () e' := by
  unfold expand
  rw [h]
  rcases m.setPersonIndex 0 e with err | first
  · simp
  · simp

theorem expand_of_count (h : m.count e = .ok copies) (hne : copies ≠ 1) :
    m.expand label e = m.labelClones label e copies 0 e := by
  unfold expand
  rw [h]
  rcases copies with _ | _ | copies
  · rfl
  · exact absurd rfl hne
  · rfl

/-- A run makes the first of the copies that are left, labels it, and goes on to the others. -/
theorem labelClones_succ {template : Event}
    (h : m.labelClones label template (copies + 1) index e = .ok () e') :
    ∃ copy labeled, m.clone template index = .ok copy ∧ label copy = .ok () labeled ∧
      m.labelClones label template copies (index + 1)
        (e.withActivities (Event.activities e ++ Event.activities labeled)) = .ok () e' := by
  rw [labelClones] at h
  rcases hc : m.clone template index with err | copy
  · rw [hc] at h
    cases h
  · rw [hc] at h
    rcases hl : label copy with ⟨⟨⟩, labeled⟩ | ⟨err, s⟩
    · simp only [hl] at h
      exact ⟨copy, labeled, rfl, hl, h⟩
    · simp only [hl] at h
      cases h

theorem fingerprint_clone (h : m.clone e index = .ok e') :
    (Event.actingFingerprint e').isSome := by
  obtain ⟨v, -, rfl⟩ := setPersonIndex_eq_ok.1 h
  exact Event.actingFingerprint_set m.personIndex.path v rfl

/-- The first copy is the numbered event itself, if that has a fingerprint. -/
theorem clone_zero (h : m.setPersonIndex 0 e = .ok e')
    (hf : (Event.actingFingerprint e').isSome) : m.clone e 0 = .ok e' := by
  obtain ⟨v, hv, rfl⟩ := setPersonIndex_eq_ok.1 h
  exact setPersonIndex_eq_ok.2 ⟨v, hv, Event.set_withFingerprint m.personIndex.path v hf⟩

end VirtualPeople.Multiplicity
