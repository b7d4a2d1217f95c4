import VirtualPeople.Model.Build
import VirtualPeople.Proofs.Labeling.Steps
import VirtualPeople.Proofs.Multiplicity.Expanding
import VirtualPeople.Proofs.Multiplicity.Rounding

/-!
# Raising the expected number

A larger constant number never makes fewer copies (`count_mono`), and fewer copies add a prefix of
what more copies add (`labelClones_prefix`). A single copy, though, is labeled as the event itself:
without fingerprint, if the event has none, where the first of several copies has the fingerprint
zero. That is the one case in which raising the number may change who comes first
(`Node.prefix_iff_not_exposes`).
-/

namespace VirtualPeople

namespace Multiplicity

/-- With a constant for the expected number. -/
def expecting (m : Multiplicity) (x : Float) : Multiplicity :=
  { m with expected := .constant x }

variable {m : Multiplicity} {lo hi x : Float} {e e' e₁ e₂ : Event} {label : Labeling}

theorem bounded_eq_ok {y : Float} (hmax : ¬ m.max < x) (h : m.bounded x = .ok y) :
    ¬ x < 0.0 ∧ x = y := by
  unfold bounded at h
  simp only [if_neg hmax] at h
  split_ifs at h with hneg
  · exact (invalidEvent_ne_ok h).elim
  · exact ⟨hneg, pure_eq_ok.1 h⟩

theorem count_expecting {copies : Nat} (hmax : ¬ m.max < x)
    (h : (m.expecting x).count e = .ok copies) :
    ¬ x < 0.0 ∧ roundBySeed x (fingerprint (m.seed ++ (Value.uint64 e.fingerprint).text))
      = copies := by
  have hexpected : (m.expecting x).expectedOf e = .ok x := rfl
  unfold count at h
  simp only [hexpected, bind_eq_ok, pure_eq_ok, Except.ok.injEq] at h
  obtain ⟨_, rfl, y, hb, hround⟩ := h
  obtain ⟨hneg, rfl⟩ := (m.expecting x).bounded_eq_ok hmax hb
  exact ⟨hneg, hround⟩

theorem not_max_lt (h : x ≤ m.max) : ¬ m.max < x := by
  intro hlt
  have hle := (double_le_iff x m.max).1 h
  have hlt := (double_lt_iff m.max x).1 hlt
  omega

/-- Raising the expected number never makes fewer copies of an event. -/
theorem count_mono {few many : Nat} (hle : lo ≤ hi) (hmax : hi ≤ m.max)
    (hfew : (m.expecting lo).count e = .ok few) (hmany : (m.expecting hi).count e = .ok many) :
    few ≤ many := by
  have hlo : lo ≤ m.max := by
    have h := (double_le_iff lo hi).1 hle
    have h' := (double_le_iff hi m.max).1 hmax
    exact (double_le_iff lo m.max).2 ⟨h.1, h'.2.1, by omega⟩
  obtain ⟨hneg, rfl⟩ := count_expecting (not_max_lt hlo) hfew
  obtain ⟨-, rfl⟩ := count_expecting (not_max_lt hmax) hmany
  exact roundBySeed_mono _ (rankOf_mono hle hneg) ((double_le_iff lo hi).1 hle).2.1

theorem setPersonIndex_expecting (index : Nat) (e : Event) :
    (m.expecting x).setPersonIndex index e = m.setPersonIndex index e := by
  have hnumber : (if index < 1 <<< 63 then m.personIndex.kind.ofInt? index else none)
      = m.number index := rfl
  unfold setPersonIndex expecting
  rw [hnumber]
  rcases m.number index with _ | v
  · rfl
  · rfl

theorem clone_expecting (index : Nat) (e : Event) :
    (m.expecting x).clone e index = m.clone e index :=
  setPersonIndex_expecting index (e.withFingerprint (m.cloneFingerprint e.fingerprint index))

theorem labelClones_expecting (template : Event) (copies index : Nat) (e : Event) :
    (m.expecting x).labelClones label template copies index e
      = m.labelClones label template copies index e := by
  induction copies generalizing index e with
  | zero => rfl
  | succ copies ih => simp only [labelClones, clone_expecting, ih]

theorem labelClones_extends {template : Event} :
    ∀ {copies index e e'}, m.labelClones label template copies index e = .ok () e' →
      Event.activities e <+: Event.activities e'
  | 0, _, e, _, h => by
    cases h
    exact List.prefix_refl (Event.activities e)
  | copies + 1, index, e, e', h => by
    obtain ⟨copy, labeled, -, -, hrest⟩ := labelClones_succ h
    have hothers := labelClones_extends hrest
    rw [Event.activities_withActivities] at hothers
    exact (List.prefix_append _ _).trans hothers

/-- Labeling fewer copies adds a prefix of what labeling more copies adds. -/
theorem labelClones_prefix {template : Event} :
    ∀ {copies more index e e₁ e₂}, m.labelClones label template copies index e = .ok () e₁ →
      m.labelClones label template (copies + more) index e = .ok () e₂ →
      Event.activities e₁ <+: Event.activities e₂
  | 0, more, index, e, e₁, e₂, h₁, h₂ => by
    cases h₁
    exact labelClones_extends h₂
  | copies + 1, more, index, e, e₁, e₂, h₁, h₂ => by
    rw [Nat.add_right_comm] at h₂
    obtain ⟨copy, labeled, hc, hl, hrest⟩ := labelClones_succ h₁
    obtain ⟨copy', labeled', hc', hl', hrest'⟩ := labelClones_succ h₂
    rw [hc] at hc'
    cases hc'
    rw [hl] at hl'
    cases hl'
    exact labelClones_prefix hrest hrest'

/-- All copies that are labeled are made. -/
theorem clone_of_labelClones {template : Event} :
    ∀ {copies index e e'}, m.labelClones label template copies index e = .ok () e' →
      ∀ k < copies, ∃ copy, m.clone template (index + k) = .ok copy
  | 0, _, _, _, _, k, hk => absurd hk (Nat.not_lt_zero k)
  | copies + 1, index, e, e', h, k, hk => by
    obtain ⟨copy, labeled, hc, -, hrest⟩ := labelClones_succ h
    rcases k with _ | k
    · exact ⟨copy, hc⟩
    · obtain ⟨other, ho⟩ := clone_of_labelClones hrest k (Nat.lt_of_succ_lt_succ hk)
      exact ⟨other, by rwa [Nat.add_assoc, Nat.add_comm 1 k] at ho⟩

/-- Copies that are labeled without activities add none. -/
theorem labelClones_of_silent {template : Event}
    (hsilent : ∀ {k copy}, m.clone template k = .ok copy →
      ∃ labeled, label copy = .ok () labeled ∧ Event.activities labeled = []) :
    ∀ (copies index : Nat) (e : Event),
      (∀ k < copies, ∃ copy, m.clone template (index + k) = .ok copy) →
      ∃ e', m.labelClones label template copies index e = .ok () e' ∧
        Event.activities e' = Event.activities e
  | 0, _, e, _ => ⟨e, rfl, rfl⟩
  | copies + 1, index, e, hmade => by
    obtain ⟨copy, hc⟩ := hmade 0 (Nat.succ_pos copies)
    obtain ⟨labeled, hl, hnone⟩ := hsilent hc
    have hmade' : ∀ k < copies, ∃ copy, m.clone template (index + 1 + k) = .ok copy := by
      intro k hk
      obtain ⟨other, ho⟩ := hmade (k + 1) (Nat.succ_lt_succ hk)
      exact ⟨other, by rwa [Nat.add_assoc, Nat.add_comm 1 k]⟩
    obtain ⟨e', hrest, hkept⟩ := labelClones_of_silent hsilent copies (index + 1)
      (e.withActivities (Event.activities e ++ Event.activities labeled)) hmade'
    refine ⟨e', ?_, hkept.trans ?_⟩
    · rw [Nat.add_zero] at hc
      rw [labelClones, hc]
      simp only [hl]
      exact hrest
    · rw [Event.activities_withActivities, hnone, List.append_nil]

/-- An event shows whether it is labeled alone: it makes one copy for the smaller number, which has
no fingerprint, and several for the larger. -/
structure Exposes (m : Multiplicity) (lo hi : Float) (e : Event) : Prop where
  alone : ∃ first, m.setPersonIndex 0 e = .ok first ∧ Event.actingFingerprint first = none
  single : (m.expecting lo).count e = .ok 1
  several : ∃ copies, 2 ≤ copies ∧ (m.expecting hi).count e = .ok copies ∧
    ∀ k < copies, ∃ copy, m.clone e k = .ok copy

theorem count_of_expand (h : m.expand label e = .ok () e') : ∃ copies, m.count e = .ok copies := by
  rcases hcount : m.count e with err | copies
  · simp only [expand, hcount] at h
    cases h
  · exact ⟨copies, rfl⟩

/-- The first of several copies is labeled as the single copy is, if that has a fingerprint. -/
theorem single_prefix {first : Event} {copies : Nat} (hempty : Event.activities e = [])
    (hfirst : m.setPersonIndex 0 e = .ok first) (hf : (Event.actingFingerprint first).isSome)
    (h₁ : label first = .ok () e₁) (h₂ : m.labelClones label e (copies + 1) 0 e = .ok () e₂) :
    Event.activities e₁ <+: Event.activities e₂ := by
  obtain ⟨copy, labeled, hc, hl, hrest⟩ := labelClones_succ h₂
  rw [clone_zero hfirst hf] at hc
  cases hc
  rw [h₁] at hl
  cases hl
  have hothers := labelClones_extends hrest
  rwa [Event.activities_withActivities, hempty, List.nil_append] at hothers

theorem expand_prefix (hle : lo ≤ hi) (hmax : hi ≤ m.max) (hempty : Event.activities e = [])
    (hhidden : ¬ m.Exposes lo hi e) (h₁ : (m.expecting lo).expand label e = .ok () e₁)
    (h₂ : (m.expecting hi).expand label e = .ok () e₂) :
    Event.activities e₁ <+: Event.activities e₂ := by
  obtain ⟨few, hfew⟩ := count_of_expand h₁
  obtain ⟨many, hmany⟩ := count_of_expand h₂
  have hcount := count_mono hle hmax hfew hmany
  by_cases hone : few = 1
  · subst hone
    obtain ⟨first, hfirst, hl⟩ := (expand_one_eq_ok hfew).1 h₁
    by_cases hsame : many = 1
    · subst hsame
      obtain ⟨first', hfirst', hl'⟩ := (expand_one_eq_ok hmany).1 h₂
      rw [setPersonIndex_expecting] at hfirst hfirst'
      rw [hfirst] at hfirst'
      cases hfirst'
      rw [hl] at hl'
      cases hl'
      exact List.prefix_refl (Event.activities e₁)
    · rw [expand_of_count hmany hsame, labelClones_expecting] at h₂
      rw [setPersonIndex_expecting] at hfirst
      have hmade := clone_of_labelClones h₂
      simp only [Nat.zero_add] at hmade
      have hf : (Event.actingFingerprint first).isSome := by
        rw [Option.isSome_iff_ne_none]
        exact fun hnone => hhidden ⟨⟨first, hfirst, hnone⟩, hfew, many, by omega, hmany, hmade⟩
      obtain ⟨copies, rfl⟩ : ∃ copies, many = copies + 1 := ⟨many - 1, by omega⟩
      exact single_prefix hempty hfirst hf hl h₂
  · rw [expand_of_count hfew hone, labelClones_expecting] at h₁
    rcases few with _ | few
    · cases h₁
      rw [hempty]
      exact List.nil_prefix
    · obtain ⟨more, rfl⟩ : ∃ more, many = few + 1 + more := ⟨many - (few + 1), by omega⟩
      rw [expand_of_count hmany (by omega), labelClones_expecting] at h₂
      exact labelClones_prefix h₁ h₂

end Multiplicity

namespace Node

/-- A node that adds an activity to any event, and cannot fail. -/
def marking : Node :=
  let marked : Event := Event.empty.withActivities [Schema.activity.fields.empty]
  ⟨"", none, false, .branch [⟨"", none, false, .stop⟩] (.condition [.always])
    (.updates [.merge ⟨[.always], [marked], false⟩])⟩

/-- The first child for events with a fingerprint, the second for all others. -/
def byFingerprint : Selector :=
  .condition [.has (.scalar ⟨"acting_fingerprint", .uint64, .field .here⟩), .always]

/-- Marks the events without fingerprint. -/
def telling : List Node := [⟨"", none, false, .stop⟩, marking]

theorem telling_of_isSome {e : Event} (h : (Event.actingFingerprint e).isSome) :
    descend telling byFingerprint e = .ok () e := by
  rcases e with ⟨_ | f, rest⟩
  · cases h
  · rfl

theorem telling_of_none {e : Event} (h : Event.actingFingerprint e = none) :
    ∃ e', descend telling byFingerprint e = .ok () e' ∧
      Event.activities e' = Event.activities e ++ [Schema.activity.fields.empty] := by
  rcases e with ⟨f, rest⟩
  cases h
  exact ⟨_, rfl, Event.activities_merge (none, rest) _⟩

/-- Of two branching nodes that differ in the constants for the expected number, the one with the
smaller assigns a prefix of the people that the other assigns, whatever the children, just when the
event does not show whether it is labeled alone. -/
theorem prefix_iff_not_exposes {m : Multiplicity} {lo hi : Float} {e : Event} (hle : lo ≤ hi)
    (hmax : hi ≤ m.max) (hempty : Event.activities e = []) :
    (∀ name index fromBuilder children selector e₁ e₂,
      Node.apply ⟨name, index, fromBuilder,
        .branch children selector (.multiplicity (m.expecting lo))⟩ e = .ok () e₁ →
      Node.apply ⟨name, index, fromBuilder,
        .branch children selector (.multiplicity (m.expecting hi))⟩ e = .ok () e₂ →
      Event.activities e₁ <+: Event.activities e₂) ↔ ¬ m.Exposes lo hi e := by
  constructor
  · rintro hlaw ⟨⟨first, hfirst, hnone⟩, hsingle, copies, htwo, hcount, hmade⟩
    obtain ⟨e₁, hl, hmarked⟩ := telling_of_none hnone
    have h₁ : (m.expecting lo).expand (descend telling byFingerprint) e = .ok () e₁ := by
      refine (Multiplicity.expand_one_eq_ok hsingle).2 ⟨first, ?_, hl⟩
      rw [Multiplicity.setPersonIndex_expecting, hfirst]
    have hsilent : ∀ {k copy}, m.clone e k = .ok copy →
        ∃ labeled, descend telling byFingerprint copy = .ok () labeled ∧
          Event.activities labeled = [] := fun {k copy} hc =>
      ⟨copy, telling_of_isSome (Multiplicity.fingerprint_clone hc),
        (Multiplicity.activities_clone hc).trans hempty⟩
    obtain ⟨e₂, hclones, hkept⟩ :=
      Multiplicity.labelClones_of_silent hsilent copies 0 e (by simpa using hmade)
    have h₂ : (m.expecting hi).expand (descend telling byFingerprint) e = .ok () e₂ := by
      rw [Multiplicity.expand_of_count hcount (by omega), Multiplicity.labelClones_expecting]
      exact hclones
    have hpeople := hlaw "" none false telling byFingerprint e₁ e₂ h₁ h₂
    rw [hkept, hempty, List.prefix_nil, hmarked] at hpeople
    exact List.append_ne_nil_of_right_ne_nil _ (List.cons_ne_nil _ _) hpeople
  · intro hhidden name index fromBuilder children selector e₁ e₂ h₁ h₂
    have h₁ : (m.expecting lo).expand (descend children selector) e = .ok () e₁ := h₁
    have h₂ : (m.expecting hi).expand (descend children selector) e = .ok () e₂ := h₂
    exact Multiplicity.expand_prefix hle hmax hempty hhidden h₁ h₂

/-- Makes up to two copies of an event. -/
def upToTwo : Multiplicity :=
  ⟨.constant 1.0, false, 2.0,
    ⟨"multiplicity_person_index", .int32, .field (.there (.there (.there .here)))⟩, ""⟩

theorem prefix_iff_not_exposes_two :
    (1.0 : Float) ≤ 2.0 ∧ (2.0 : Float) ≤ upToTwo.max ∧ Event.activities .empty = [] ∧
      ((∀ name index fromBuilder children selector e₁ e₂,
        Node.apply ⟨name, index, fromBuilder,
          .branch children selector (.multiplicity (upToTwo.expecting 1.0))⟩ .empty = .ok () e₁ →
        Node.apply ⟨name, index, fromBuilder,
          .branch children selector (.multiplicity (upToTwo.expecting 2.0))⟩ .empty = .ok () e₂ →
        Event.activities e₁ <+: Event.activities e₂) ↔ ¬ upToTwo.Exposes 1.0 2.0 .empty) := by
  have hle : (1.0 : Float) ≤ 2.0 := by decide
  have hmax : (2.0 : Float) ≤ upToTwo.max := by decide
  have hempty : Event.activities .empty = [] := rfl
  exact ⟨hle, hmax, hempty, prefix_iff_not_exposes hle hmax hempty⟩

/-- Stops the copies that have a fingerprint and assigns a person to all others. -/
def expectingPeople (x : Float) : NodeSpec :=
  let stop : NodeSpec := ⟨none, none, none, none, none, some ()⟩
  let leaf : NodeSpec := ⟨none, none, none, none, some ⟨[⟨0, 0⟩], none⟩, none⟩
  ⟨none, none, none,
    some ⟨[⟨some stop, none, none, some ⟨.has, some "acting_fingerprint", none, []⟩⟩,
        ⟨some leaf, none, none, some ⟨.always, none, none, []⟩⟩], none, none,
      some ⟨some x, none, some 2.0, some false, some "multiplicity_person_index", some ""⟩⟩,
    none, none⟩

/-- A single copy of the event without fingerprint is assigned a person, two copies are not. -/
theorem expectingPeople_not_prefix :
    ∃ one two e₁ e₂, ofRoot (expectingPeople 1.0) = .ok one ∧
      ofRoot (expectingPeople 2.0) = .ok two ∧ one.apply .empty = .ok () e₁ ∧
      two.apply .empty = .ok () e₂ ∧ (1.0 : Float) ≤ 2.0 ∧ Event.activities .empty = [] ∧
      ¬ Event.activities e₁ <+: Event.activities e₂ := by
  have hrun : ∃ one two e₁ e₂, ofRoot (expectingPeople 1.0) = .ok one ∧
      ofRoot (expectingPeople 2.0) = .ok two ∧ one.apply .empty = .ok () e₁ ∧
      two.apply .empty = .ok () e₂ ∧ (Event.activities e₁).length = 1 ∧
      (Event.activities e₂).length = 0 :=
    ⟨_, _, _, _, rfl, rfl, rfl, rfl, rfl, rfl⟩
  obtain ⟨one, two, e₁, e₂, hone, htwo, h₁, h₂, hsome, hnone⟩ := hrun
  refine ⟨one, two, e₁, e₂, hone, htwo, h₁, h₂, by decide, rfl, fun hpeople => ?_⟩
  have hle := hpeople.length_le
  omega

end Node

end VirtualPeople
