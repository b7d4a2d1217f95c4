import VirtualPeople.Proofs.Labeling.Steps
import VirtualPeople.Proofs.Multiplicity.Expanding
import VirtualPeople.Proofs.Multiplicity.Raising
import VirtualPeople.Proofs.Record.Literals

/-!
# Copies are labeled by themselves

Each copy is made of the event as it was, from which it differs in its number and its fingerprint
only (`Multiplicity.IsCopy`), so what labeling one copy does to it reaches neither the event nor
another copy. An event that is split keeps everything but its activities, to which the copies add
theirs in order, and the first copy that cannot be made or labeled ends the run
(`Node.apply_iff_copies`).
-/

namespace VirtualPeople

namespace Multiplicity

variable {m : Multiplicity} {label : Labeling} {template e e' : Event}

/-- The activities of a copy of an event, made and labeled by itself. -/
def labelCopy (m : Multiplicity) (label : Labeling) (e : Event) (index : Nat) :
    Except Error (List Activity) := do
  let copy ← m.setPersonIndex index
    (e.withFingerprint (m.cloneFingerprint (Event.fingerprint e) index))
  match label copy with
  | .ok () labeled => return Event.activities labeled
  | .error err _ => .error err

/-- The event with the number of a copy in the field that counts copies and, unless that is this
field itself, with the fingerprint of that copy. No other scalar and no list differs, and no other
message is set but those on the way to the field. -/
structure IsCopy (m : Multiplicity) (e : Event) (index : Nat) (copy : Event) : Prop where
  number : (m.personIndex.get? copy).bind Value.integer? = some (index : Int)
  fingerprint : m.personIndex.place ≠ Event.fingerprintField.place →
    Event.actingFingerprint copy = some (m.cloneFingerprint (Event.fingerprint e) index)
  scalars : ∀ f : ScalarField Schema.event.fields, f.place ≠ m.personIndex.place →
    f.place ≠ Event.fingerprintField.place → f.get? copy = f.get? e
  messages : ∀ f : MessageField Schema.event.fields, (Field.message f).isSet copy ↔
    (∃ rest, m.personIndex.path = f.path.andThen rest) ∨ (Field.message f).isSet e
  lists : ∀ t (q : Path Schema.event.fields (.list t)), q.get copy = q.get e

theorem isCopy_of_setPersonIndex {index : Nat} {copy : Event} (h : m.setPersonIndex index
    (e.withFingerprint (m.cloneFingerprint (Event.fingerprint e) index)) = .ok copy) :
    m.IsCopy e index copy := by
  obtain ⟨v, hv, rfl⟩ := setPersonIndex_eq_ok.1 h
  have hnumber : m.personIndex.kind.ofInt? index = some v := by
    unfold number at hv
    split_ifs at hv
    exact hv
  constructor
  · simp only [ScalarField.get?, ScalarField.get, Path.get_set, Option.map_some,
      Option.bind_some, integer_of_ofInt hnumber]
  · intro hne
    exact Path.get_set_of_ne (by simp) (some v) Event.fingerprintField.path m.personIndex.path
      hne.symm _
  · intro f hindex hfingerprint
    have hevent := Path.get_set_of_ne (by simp)
      (some (m.cloneFingerprint (Event.fingerprint e) index)) f.path Event.fingerprintField.path
      hfingerprint e
    have hcopy := Path.get_set_of_ne (by simp) (some v) f.path m.personIndex.path hindex
      (e.withFingerprint (m.cloneFingerprint (Event.fingerprint e) index))
    exact congrArg (Option.map (Value.of f.kind)) (hcopy.trans hevent)
  · intro f
    have hevent := Path.isSome_get_set (some (m.cloneFingerprint (Event.fingerprint e) index))
      f.path Event.fingerprintField.path e
    have hnone : ¬ ∃ rest, Event.fingerprintField.path = f.path.andThen rest := by
      rintro ⟨rest, hrest⟩
      exact Path.field_ne_andThen f.path rest hrest
    exact (Path.isSome_get_set (some v) f.path m.personIndex.path _).trans
      (or_congr_right (hevent.trans (or_iff_right hnone)))
  · intro t q
    have hevent := Path.get_set_of_ne (by simp)
      (some (m.cloneFingerprint (Event.fingerprint e) index)) q Event.fingerprintField.path
      (by simp) e
    exact (Path.get_set_of_ne (by simp) (some v) q m.personIndex.path (by simp) _).trans hevent

theorem labelClones_cons (copies index : Nat) :
    m.labelClones label template (copies + 1) index e =
      match m.labelCopy label template index with
      | .ok added => m.labelClones label template copies (index + 1)
          (e.withActivities (Event.activities e ++ added))
      | .error err => .error err e := by
  have hclone : m.clone template index = m.setPersonIndex index
      (template.withFingerprint (m.cloneFingerprint (Event.fingerprint template) index)) := rfl
  rw [labelClones, labelCopy, ← hclone]
  rcases m.clone template index with err | copy
  · rfl
  · simp only [bind, Except.bind]
    rcases label copy with ⟨⟨⟩, labeled⟩ | ⟨err, s⟩
    · rfl
    · rfl

/-- The copies from a number on are labeled if each of them is, and add what each of them adds. -/
theorem labelClones_eq_ok : ∀ {copies index : Nat} {e : Event},
    m.labelClones label template copies index e = .ok () e' ↔
      ∃ added : List (List Activity), added.length = copies ∧
        (∀ k as, added[k]? = some as → m.labelCopy label template (index + k) = .ok as) ∧
        e' = e.withActivities (Event.activities e ++ added.flatten)
  | 0, index, e => by
    have hkept : e.withActivities (Event.activities e ++ []) = e := by
      rw [List.append_nil]
      rfl
    constructor
    · intro h
      cases h
      exact ⟨[], rfl, nofun, hkept.symm⟩
    · rintro ⟨added, hlen, -, rfl⟩
      rw [List.length_eq_zero_iff.1 hlen, List.flatten_nil, hkept]
      rfl
  | copies + 1, index, e => by
    rw [labelClones_cons]
    rcases hfirst : m.labelCopy label template index with err | first
    · constructor
      · intro h
        cases h
      · rintro ⟨added, hlen, hadded, -⟩
        obtain ⟨as, others, rfl⟩ := List.exists_cons_of_length_eq_add_one hlen
        have := hadded 0 as rfl
        rw [Nat.add_zero, hfirst] at this
        cases this
    · simp only
      rw [labelClones_eq_ok]
      constructor
      · rintro ⟨added, hlen, hadded, rfl⟩
        refine ⟨first :: added, by rw [List.length_cons, hlen], ?_, ?_⟩
        · rintro (_ | k) as has
          · cases has
            exact hfirst
          · rw [Nat.add_comm k, ← Nat.add_assoc]
            exact hadded k as has
        · rw [Event.activities_withActivities, List.flatten_cons, List.append_assoc]
          rfl
      · rintro ⟨added, hlen, hadded, rfl⟩
        obtain ⟨as, others, rfl⟩ := List.exists_cons_of_length_eq_add_one hlen
        obtain rfl : first = as := by
          have := hadded 0 as rfl
          rw [Nat.add_zero, hfirst] at this
          exact Except.ok.inj this
        refine ⟨others, Nat.succ.inj hlen, fun k as has => ?_, ?_⟩
        · rw [Nat.add_assoc, Nat.add_comm 1]
          exact hadded (k + 1) as has
        · rw [Event.activities_withActivities, List.flatten_cons, List.append_assoc]
          rfl

/-- The copies from a number on fail as the first of them that fails. -/
theorem labelClones_eq_error {err : Error} : ∀ {copies index : Nat} {e : Event},
    (∃ s, m.labelClones label template copies index e = .error err s) ↔
      ∃ k < copies, m.labelCopy label template (index + k) = .error err ∧
        ∀ j < k, ∃ as, m.labelCopy label template (index + j) = .ok as
  | 0, index, e => by
    constructor
    · rintro ⟨s, h⟩
      cases h
    · rintro ⟨k, hk, -⟩
      exact absurd hk (Nat.not_lt_zero k)
  | copies + 1, index, e => by
    rw [labelClones_cons]
    rcases hfirst : m.labelCopy label template index with err' | first
    · constructor
      · rintro ⟨s, h⟩
        cases h
        exact ⟨0, Nat.succ_pos copies, hfirst, nofun⟩
      · rintro ⟨_ | k, -, herr, hbefore⟩
        · rw [Nat.add_zero, hfirst] at herr
          cases herr
          exact ⟨e, rfl⟩
        · obtain ⟨as, has⟩ := hbefore 0 (Nat.succ_pos k)
          rw [Nat.add_zero, hfirst] at has
          cases has
    · simp only
      rw [labelClones_eq_error]
      constructor
      · rintro ⟨k, hk, herr, hbefore⟩
        refine ⟨k + 1, Nat.succ_lt_succ hk, ?_, ?_⟩
        · rw [Nat.add_comm k, ← Nat.add_assoc]
          exact herr
        · rintro (_ | j) hj
          · exact ⟨first, hfirst⟩
          · rw [Nat.add_comm j, ← Nat.add_assoc]
            exact hbefore j (Nat.lt_of_succ_lt_succ hj)
      · rintro ⟨_ | k, hk, herr, hbefore⟩
        · rw [Nat.add_zero, hfirst] at herr
          cases herr
        · refine ⟨k, Nat.lt_of_succ_lt_succ hk, ?_, fun j hj => ?_⟩
          · rw [Nat.add_assoc, Nat.add_comm 1]
            exact herr
          · rw [Nat.add_assoc, Nat.add_comm 1]
            exact hbefore (j + 1) (Nat.succ_lt_succ hj)

end Multiplicity

namespace Node

/-- A branching node that splits an event into another number of copies than one gives it the
activities of all copies and changes nothing else of it, or fails as the first copy that fails. A
copy that is labeled is the event but for its number and its fingerprint. -/
theorem apply_iff_copies {m : Multiplicity} {e : Event} {copies : Nat}
    (hempty : Event.activities e = []) (hcount : m.count e = .ok copies) (hne : copies ≠ 1)
    (name : String) (index : Option UInt32) (fromBuilder : Bool) (children : List Node)
    (selector : Selector) :
    (∀ e', Node.apply ⟨name, index, fromBuilder, .branch children selector (.multiplicity m)⟩ e
        = .ok () e' ↔
      ∃ added : List (List Activity), added.length = copies ∧
        (∀ k as, added[k]? = some as → m.labelCopy (descend children selector) e k = .ok as) ∧
        e' = e.withActivities added.flatten) ∧
    (∀ err, (∃ s, Node.apply ⟨name, index, fromBuilder,
        .branch children selector (.multiplicity m)⟩ e = .error err s) ↔
      ∃ k < copies, m.labelCopy (descend children selector) e k = .error err ∧
        ∀ j < k, ∃ as, m.labelCopy (descend children selector) e j = .ok as) ∧
    ∀ k copy, m.setPersonIndex k
        (e.withFingerprint (m.cloneFingerprint (Event.fingerprint e) k)) = .ok copy →
      m.IsCopy e k copy := by
  have hrun : Node.apply ⟨name, index, fromBuilder, .branch children selector (.multiplicity m)⟩ e
      = m.labelClones (descend children selector) e copies 0 e :=
    Multiplicity.expand_of_count hcount hne
  rw [hrun]
  refine ⟨fun e' => ?_, fun err => ?_, fun k copy => Multiplicity.isCopy_of_setPersonIndex⟩
  · rw [Multiplicity.labelClones_eq_ok]
    simp only [Nat.zero_add, hempty, List.nil_append]
  · rw [Multiplicity.labelClones_eq_error]
    simp only [Nat.zero_add]

theorem apply_iff_copies_two : Event.activities .empty = [] ∧
    (upToTwo.expecting 2.0).count .empty = .ok 2 ∧ 2 ≠ 1 ∧
    (∀ e', Node.apply ⟨"", none, false, .branch [marking] (.condition [.always])
        (.multiplicity (upToTwo.expecting 2.0))⟩ .empty = .ok () e' ↔
      ∃ added : List (List Activity), added.length = 2 ∧
        (∀ k as, added[k]? = some as → (upToTwo.expecting 2.0).labelCopy
          (descend [marking] (.condition [.always])) .empty k = .ok as) ∧
        e' = Event.withActivities added.flatten .empty) ∧
    (∀ err, (∃ s, Node.apply ⟨"", none, false, .branch [marking] (.condition [.always])
        (.multiplicity (upToTwo.expecting 2.0))⟩ .empty = .error err s) ↔
      ∃ k < 2, (upToTwo.expecting 2.0).labelCopy
          (descend [marking] (.condition [.always])) .empty k = .error err ∧
        ∀ j < k, ∃ as, (upToTwo.expecting 2.0).labelCopy
          (descend [marking] (.condition [.always])) .empty j = .ok as) ∧
    ∃ copy, (upToTwo.expecting 2.0).clone .empty 1 = .ok copy ∧
      (upToTwo.expecting 2.0).IsCopy .empty 1 copy := by
  have hempty : Event.activities .empty = [] := rfl
  have hcount : (upToTwo.expecting 2.0).count .empty = .ok 2 := rfl
  obtain ⟨hsucceeds, hfails, hcopy⟩ := apply_iff_copies hempty hcount (by decide) "" none false
    [marking] (.condition [.always])
  exact ⟨hempty, hcount, by decide, hsucceeds, hfails, _, rfl, hcopy 1 _ rfl⟩

end Node

end VirtualPeople
