import VirtualPeople.Proofs.Labeling.Activities
import VirtualPeople.Proofs.Labeling.Internal

/-!
# Who is blamed

A run blames the event for what is wrong with it, in one case excepted: a leaf that collapses the
quantum labels of an event makes a distribution of the weights that the event brings along, and
weights that are negative or do not sum to one are refused as those of a model are. So a run fails
with a fault of the model just when it gives such an event to a leaf (`Node.blames_model_iff`).
-/

namespace VirtualPeople

variable {α β : Type}

/-- An error that does not blame the model: a fault of the event, or an internal one. -/
def Error.SparesModel : Error → Prop
  | .invalidEvent _ => True
  | .internal _ => True
  | _ => False

/-- Fails, if it does, without blaming the model. -/
def SparesModel (x : Except Error α) : Prop := ∀ err, x = .error err → err.SparesModel

namespace SparesModel

theorem ok (v : α) : SparesModel (.ok v) := by
  intro err h
  cases h

theorem invalidEvent (fault : EventFault) : SparesModel (invalidEvent fault : Except Error α) := by
  intro err h
  cases h
  trivial

theorem internal (fault : InternalFault) :
    SparesModel (.error (.internal fault) : Except Error α) := by
  intro err h
  cases h
  trivial

theorem bind {x : Except Error α} {f : α → Except Error β} (hx : SparesModel x)
    (hf : ∀ v, SparesModel (f v)) : SparesModel (x >>= f) := by
  rcases x with err | v
  · intro err' h
    cases h
    exact hx err rfl
  · exact hf v

end SparesModel

theorem Selector.select_sparesModel (s : Selector) (e : Event) : SparesModel (s.select e) := by
  unfold select
  split
  · exact .ok _
  · split
    · exact .ok _
    · exact .invalidEvent _

theorem ColumnMatcher.select_sparesModel (matcher : ColumnMatcher) (rows : List Distribution)
    (seed : String) (e : Event) : SparesModel (matcher.select rows seed e) := by
  unfold select
  split
  · exact .ok none
  · split
    · exact .internal _
    · exact .ok _

section

variable {e s : Event} {err : Error}

theorem ColumnMatcher.mergeRow_sparesModel {matcher : ColumnMatcher} {rows : List Distribution}
    {seed : String} {passThrough : Bool} {change? : Nat → Nat → Option Event}
    (h : matcher.mergeRow rows seed passThrough change? e = .error err s) : err.SparesModel := by
  obtain ⟨-, hselect | rfl | ⟨_, _, -, -, rfl⟩⟩ := mergeRow_eq_error h
  · exact matcher.select_sparesModel rows seed e err hselect
  · trivial
  · trivial

theorem ConditionalMerge.update_sparesModel {m : ConditionalMerge} (h : m.update e = .error err s) :
    err.SparesModel := by
  obtain ⟨-, rfl | ⟨_, -, -, rfl⟩⟩ := update_eq_error h
  · trivial
  · trivial

theorem write_sparesModel {f : ScalarField Schema.event.fields} {v : Value}
    (h : (Field.scalar f).write Schema.event.name v e = .error err s) : err.SparesModel := by
  obtain ⟨-, rfl, -⟩ := Field.write_eq_error.1 h
  trivial

theorem Assignment.run_sparesModel {a : Assignment} (h : a.run e = .error err s) :
    err.SparesModel := by
  rcases hread : a.source.get? e with _ | v
  · rw [run_of_none hread] at h
    cases h
  · rw [run_of_some hread] at h
    exact write_sparesModel h

theorem Assignment.runAll_sparesModel : ∀ {assignments : List Assignment} {e : Event},
    runAll assignments e = .error err s → err.SparesModel
  | [], _, h => by cases h
  | _ :: _, _, h => by
    simp only [runAll] at h
    split at h
    · exact runAll_sparesModel h
    · cases h
      exact run_sparesModel ‹_›

theorem ConditionalAssignment.update_sparesModel {a : ConditionalAssignment}
    (h : a.update e = .error err s) : err.SparesModel := by
  by_cases hholds : a.condition.holds e
  · rw [update_of_holds hholds] at h
    exact Assignment.runAll_sparesModel h
  · rw [update_of_not_holds hholds] at h
    cases h

theorem Shredder.update_sparesModel {d : Shredder} (h : d.update e = .error err s) :
    err.SparesModel := by
  obtain ⟨-, _, rfl⟩ | ⟨_, hwrite⟩ := updateBy_eq_error h
  · trivial
  · exact write_sparesModel hwrite

end

namespace Multiplicity

theorem count_sparesModel (m : Multiplicity) (e : Event) : SparesModel (m.count e) := by
  have hleast : ∀ x : Float, SparesModel
      (if x < 0.0 then VirtualPeople.invalidEvent (.multiplicityNegative x) else pure x) := by
    intro x
    split_ifs
    · exact .invalidEvent _
    · exact .ok x
  have hexpected : SparesModel (m.expectedOf e) := by
    unfold expectedOf
    split
    · exact .ok _
    · split
      · exact .ok _
      · exact .invalidEvent _
  have hbounded : ∀ x, SparesModel (m.bounded x) := by
    intro x
    unfold bounded
    simp only
    split
    · split
      · exact hleast m.max
      · exact .invalidEvent _
    · exact hleast x
  unfold count
  exact .bind hexpected fun x => .bind (hbounded x) fun y => .ok _

theorem setPersonIndex_sparesModel (m : Multiplicity) (index : Nat) (e : Event) :
    SparesModel (m.setPersonIndex index e) := by
  unfold setPersonIndex
  split
  · exact .ok _
  · exact .invalidEvent _

end Multiplicity

/-! ## Leaves -/

namespace Distribution

/-- Why weights, of which there are some, make no distribution: one is negative, or else their sum
is not near one. -/
inductive Refuses (weights : List Float) : ModelFault → Prop
  | negative {w : Float} (h : weights.find? (· < 0.0) = some w) :
    Refuses weights (.negativeWeight w)
  | sum (h : ∀ w ∈ weights, ¬ w < 0.0) (hsum : isNearOne (weights.foldl (· + ·) 0.0) = false) :
    Refuses weights (.weightSum (weights.foldl (· + ·) 0.0))

theorem map_weight_mapIdx (weights : List Float) :
    (weights.mapIdx fun i w => (⟨i, w⟩ : Choice)).map Choice.weight = weights :=
  List.ext_getElem (by simp) fun i _ _ => by simp

/-- Weights are refused for a fault of theirs. -/
theorem ofWeights_eq_error {weights : List Float} (hne : weights ≠ []) {err : Error} :
    ofWeights weights = .error err ↔
      ∃ fault, Refuses weights fault ∧ err = .invalidModel fault := by
  obtain ⟨choices, hchoices⟩ : ∃ choices, choices = weights.mapIdx fun i w => (⟨i, w⟩ : Choice) :=
    ⟨_, rfl⟩
  have hweights : choices.map Choice.weight = weights := by
    rw [hchoices, map_weight_mapIdx]
  have hfind : weights.find? (· < 0.0) =
      (choices.find? fun c => c.weight < 0.0).map Choice.weight := by
    rw [← hweights, List.find?_map]
    rfl
  have htotal : total choices = weights.foldl (· + ·) 0.0 := by
    rw [← hweights, List.foldl_map]
    rfl
  rw [ofWeights, ← hchoices]
  rcases choices with _ | ⟨first, rest⟩
  · exact absurd hweights.symm hne
  unfold ofChoices
  simp only [htotal]
  split
  · rename_i c hc
    rw [hc, Option.map_some] at hfind
    constructor
    · intro h
      cases h
      exact ⟨_, .negative hfind, rfl⟩
    · rintro ⟨fault, hfault, rfl⟩
      cases hfault with
      | negative h =>
        rw [hfind] at h
        cases h
        rfl
      | sum h _ =>
        exact absurd (List.find?_some hfind) (by simpa using h _ (List.mem_of_find?_eq_some hfind))
  · rename_i hc
    rw [hc, Option.map_none] at hfind
    split_ifs with hsum
    · constructor
      · intro h
        cases h
      · rintro ⟨fault, hfault, rfl⟩
        cases hfault with
        | negative h =>
          rw [hfind] at h
          cases h
        | sum _ h =>
          rw [hsum] at h
          cases h
    · constructor
      · intro h
        cases h
        refine ⟨_, .sum (fun w hw => ?_) (Bool.eq_false_iff.2 hsum), rfl⟩
        simpa using List.find?_eq_none.1 hfind w hw
      · rintro ⟨fault, hfault, rfl⟩
        cases hfault with
        | negative h =>
          rw [hfind] at h
          cases h
        | sum => rfl

end Distribution

namespace QuantumLabel

/-- A label that is refused for the weights that it has, one for each candidate. -/
structure Refuses (q : QuantumLabel) (fault : ModelFault) : Prop where
  candidates : q.labels ≠ []
  length : q.labels.length = q.probabilities.length
  weights : Distribution.Refuses q.probabilities fault

/-- A label that is collapsed to one of its candidates, whatever the seed. -/
structure Sound (q : QuantumLabel) : Prop where
  candidates : q.labels ≠ []
  length : q.labels.length = q.probabilities.length
  weights : ∀ fault, ¬ Distribution.Refuses q.probabilities fault

variable {suffix : String} {q : QuantumLabel} {fault : ModelFault} {err : Error}

theorem probabilities_ne_nil (hsome : q.labels ≠ [])
    (hlength : q.labels.length = q.probabilities.length) : q.probabilities ≠ [] := by
  intro hnil
  rw [hnil] at hlength
  exact hsome (List.length_eq_zero_iff.1 hlength)

theorem collapse_of_refuses (h : q.Refuses fault) :
    q.collapse suffix = .error (.invalidModel fault) := by
  have hrefused := (Distribution.ofWeights_eq_error (probabilities_ne_nil h.candidates h.length)).2
    ⟨fault, h.weights, rfl⟩
  unfold collapse
  rw [if_neg (by simpa using h.candidates), if_neg (by simpa using h.length), hrefused]
  rfl

theorem collapse_of_sound (h : q.Sound) : ∃ label, q.collapse suffix = .ok label := by
  rcases hd : Distribution.ofWeights q.probabilities with err | d
  · obtain ⟨fault, hfault, -⟩ :=
      (Distribution.ofWeights_eq_error (probabilities_ne_nil h.candidates h.length)).1 hd
    exact absurd hfault (h.weights fault)
  · have hpick := q.inRange d h.length hd
    unfold collapse
    rw [if_neg (by simpa using h.candidates), if_neg (by simpa using h.length), hd]
    simp only [bind, Except.bind, List.getElem?_eq_getElem (hpick _)]
    exact ⟨_, rfl⟩

theorem sound_of_collapse {label : PersonLabel} (h : q.collapse suffix = .ok label) : q.Sound := by
  unfold collapse at h
  split_ifs at h with hsome hlength
  · exact (invalidEvent_ne_ok h).elim
  · exact (invalidEvent_ne_ok h).elim
  · have hsome : q.labels ≠ [] := by simpa using hsome
    have hlength := Decidable.not_not.1 hlength
    refine ⟨hsome, hlength, fun fault hfault => ?_⟩
    obtain ⟨d, hd, -⟩ := bind_eq_ok.1 h
    rw [(Distribution.ofWeights_eq_error (probabilities_ne_nil hsome hlength)).2
      ⟨fault, hfault, rfl⟩] at hd
    cases hd

theorem collapse_eq_error (h : q.collapse suffix = .error err) :
    err.SparesModel ∨ ∃ fault, q.Refuses fault ∧ err = .invalidModel fault := by
  unfold collapse at h
  split_ifs at h with hsome hlength
  · cases h
    exact .inl trivial
  · cases h
    exact .inl trivial
  · have hsome : q.labels ≠ [] := by simpa using hsome
    have hlength := Decidable.not_not.1 hlength
    rcases hd : Distribution.ofWeights q.probabilities with err' | d
    · rw [hd] at h
      cases h
      obtain ⟨fault, hfault, rfl⟩ :=
        (Distribution.ofWeights_eq_error (probabilities_ne_nil hsome hlength)).1 hd
      exact .inr ⟨fault, ⟨hsome, hlength, hfault⟩, rfl⟩
    · rw [hd] at h
      simp only [bind, Except.bind] at h
      split at h
      · cases h
      · cases h
        exact .inl trivial

/-- Of the labels, the first that cannot be collapsed is refused. -/
def RefusedAmong (labels : List QuantumLabel) (fault : ModelFault) : Prop :=
  ∃ before q after, labels = before ++ q :: after ∧ (∀ p ∈ before, Sound p) ∧ Refuses q fault

theorem collapseAll_of_refused : ∀ {labels : List QuantumLabel} (label : PersonLabel),
    RefusedAmong labels fault → collapseAll suffix label labels = .error (.invalidModel fault)
  | _, label, ⟨[], q, after, rfl, _, hq⟩ => by
    rw [List.nil_append, collapseAll, collapse_of_refuses hq]
    rfl
  | _, label, ⟨p :: before, q, after, rfl, hsound, hq⟩ => by
    obtain ⟨hp, hbefore⟩ := List.forall_mem_cons.1 hsound
    obtain ⟨chosen, hchosen⟩ : ∃ chosen, p.collapse suffix = .ok chosen := collapse_of_sound hp
    rw [List.cons_append, collapseAll, hchosen]
    exact collapseAll_of_refused _ ⟨before, q, after, rfl, hbefore, hq⟩

theorem collapseAll_eq_error : ∀ {labels : List QuantumLabel} {label : PersonLabel},
    collapseAll suffix label labels = .error err →
      err.SparesModel ∨ ∃ fault, RefusedAmong labels fault ∧ err = .invalidModel fault
  | [], _, h => by cases h
  | q :: rest, label, h => by
    rw [collapseAll] at h
    rcases hq : q.collapse suffix with err' | chosen
    · rw [hq] at h
      cases h
      rcases collapse_eq_error hq with hspares | ⟨fault, hfault, rfl⟩
      · exact .inl hspares
      · exact .inr ⟨fault, ⟨[], q, rest, rfl, nofun, hfault⟩, rfl⟩
    · rw [hq] at h
      rcases collapseAll_eq_error h with hspares | ⟨fault, hfault, rfl⟩
      · exact .inl hspares
      · obtain ⟨before, p, after, rfl, hbefore, hp⟩ := hfault
        exact .inr ⟨fault, ⟨q :: before, p, after, rfl,
          List.forall_mem_cons.2 ⟨sound_of_collapse hq, hbefore⟩, hp⟩, rfl⟩

end QuantumLabel

/-- An event that a leaf refuses as if the model were wrong: it has no activities, and among its
quantum labels the first that cannot be collapsed is refused for its weights. -/
def Event.RefusedFor (e : Event) (fault : ModelFault) : Prop :=
  Event.activities e = [] ∧
    ∃ labels, Event.quantumLabels e = some labels ∧ QuantumLabel.RefusedAmong labels fault

namespace Population

variable {leaf : Population} {e : Event} {fault : ModelFault} {err : Error}

theorem label_of_refused {labels : List QuantumLabel}
    (hlabels : Event.quantumLabels e = some labels) (h : QuantumLabel.RefusedAmong labels fault)
    (id : Option Int64) : label e id = .error (.invalidModel fault) := by
  unfold label
  simp only [hlabels, QuantumLabel.collapseAll_of_refused _ h]
  rfl

theorem label_eq_error {id : Option Int64} (h : label e id = .error err) :
    err.SparesModel ∨ ∃ labels fault, Event.quantumLabels e = some labels ∧
      QuantumLabel.RefusedAmong labels fault ∧ err = .invalidModel fault := by
  unfold label at h
  simp only at h
  rcases hlabels : Event.quantumLabels e with _ | labels
  · rw [hlabels] at h
    rcases hown : Event.label e with _ | own
    · rw [hown] at h
      cases h
    · rw [hown] at h
      cases h
  · rw [hlabels] at h
    simp only at h
    generalize hx : QuantumLabel.collapseAll _ _ labels = x at h
    rcases x with err' | chosen
    · cases h
      rcases QuantumLabel.collapseAll_eq_error hx with hspares | ⟨fault, hfault, rfl⟩
      · exact .inl hspares
      · exact .inr ⟨labels, fault, rfl, hfault, rfl⟩
    · rcases hown : Event.label e with _ | own
      · rw [hown] at h
        cases h
      · rw [hown] at h
        cases h

theorem apply_of_refused (h : e.RefusedFor fault) :
    leaf.apply e = .error (.invalidModel fault) := by
  obtain ⟨hempty, labels, hlabels, hrefused⟩ := h
  rw [apply_eq_error_iff_assigned, assigned_of_empty hempty, label_of_refused hlabels hrefused]
  rfl

theorem apply_eq_error (h : leaf.apply e = .error err) :
    err.SparesModel ∨ ∃ fault, e.RefusedFor fault ∧ err = .invalidModel fault := by
  rw [apply_eq_error_iff_assigned] at h
  by_cases hempty : Event.activities e = []
  · rw [assigned_of_empty hempty] at h
    rcases hlabel : label e (leaf.personId e.fingerprint) with err' | own
    · rw [hlabel] at h
      cases h
      rcases label_eq_error hlabel with hspares | ⟨labels, fault, hlabels, hfault, rfl⟩
      · exact .inl hspares
      · exact .inr ⟨fault, ⟨hempty, labels, hlabels, hfault⟩, rfl⟩
    · rw [hlabel] at h
      cases h
  · rw [assigned_of_ne_nil hempty] at h
    cases h
    exact .inl trivial

end Population

/-! ## Runs -/

/-- A leaf of the steps fails with an error. -/
def FailsAt (steps : List Step) (err : Error) : Prop :=
  ∃ leaf e, Step.assign leaf e ∈ steps ∧ leaf.apply e = .error err

/-- A run spares the model, unless one of its leaves fails; and then it fails as the leaf does. -/
structure Blames (label : Labeling) (steps : Event → List Step) : Prop where
  leaf : ∀ {e err s}, label e = .error err s → err.SparesModel ∨ FailsAt (steps e) err
  run : ∀ {e err}, FailsAt (steps e) err → ∃ s, label e = .error err s

namespace FailsAt

variable {steps steps' : List Step} {err : Error}

theorem append_iff : FailsAt (steps ++ steps') err ↔ FailsAt steps err ∨ FailsAt steps' err := by
  unfold FailsAt
  simp only [List.mem_append]
  grind

theorem not_nil : ¬ FailsAt [] err := by
  rintro ⟨leaf, e, h, -⟩
  cases h

theorem split_iff {copies : Nat} {e : Event} :
    FailsAt (.split copies e :: steps) err ↔ FailsAt steps err := by
  unfold FailsAt
  simp

end FailsAt

namespace Blames

theorem silent {label : Labeling}
    (h : ∀ {e err s}, label e = .error err s → err.SparesModel) : Blames label fun _ => [] :=
  ⟨fun he => .inl (h he), fun he => (FailsAt.not_nil he).elim⟩

theorem population (leaf : Population) :
    Blames (Labeling.change leaf.apply) fun e => [.assign leaf e] := by
  constructor
  · intro e err s he
    unfold Labeling.change at he
    split at he
    · cases he
    · rename_i err' herr
      cases he
      exact .inr ⟨leaf, e, List.mem_singleton_self _, herr⟩
  · rintro e err ⟨leaf', e', hmem, herr⟩
    cases List.mem_singleton.1 hmem
    refine ⟨e, ?_⟩
    unfold Labeling.change
    rw [herr]

/-- One run, and then another where the first succeeds. -/
theorem andThen {first second : Labeling} {steps steps' : Event → List Step}
    (h : Blames first steps) (h' : Blames second steps') :
    Blames (fun e =>
        match first e with
        | .ok () e => second e
        | .error err e => .error err e)
      fun e =>
        match first e with
        | .ok () e' => steps e ++ steps' e'
        | .error _ _ => steps e := by
  constructor
  · intro e err s he
    rcases hf : first e with ⟨⟨⟩, mid⟩ | ⟨err', s'⟩
    · rw [hf] at he
      rw [FailsAt.append_iff]
      exact (h'.leaf he).imp_right .inr
    · rw [hf] at he
      cases he
      exact h.leaf hf
  · intro e err he
    rcases hf : first e with ⟨⟨⟩, mid⟩ | ⟨err', s'⟩
    · rw [hf] at he
      rcases FailsAt.append_iff.1 he with he | he
      · obtain ⟨s, hs⟩ := h.run he
        rw [hf] at hs
        cases hs
      · exact h'.run he
    · rw [hf] at he
      obtain ⟨s, hs⟩ := h.run he
      rw [hf] at hs
      cases hs
      exact ⟨_, rfl⟩

theorem descend {children : List Node} (selector : Selector)
    (hat : ∀ i, Blames (applyAt children i) (stepsAt children i)) :
    Blames (VirtualPeople.descend children selector) fun e =>
      match selector.select e with
      | .error _ => []
      | .ok i => stepsAt children i e := by
  constructor
  · intro e err s he
    unfold VirtualPeople.descend at he
    rcases hs : selector.select e with err' | i
    · rw [hs] at he
      cases he
      exact .inl (selector.select_sparesModel e err hs)
    · rw [hs] at he
      exact (hat i).leaf he
  · intro e err he
    unfold VirtualPeople.descend
    rcases hs : selector.select e with err' | i
    · rw [hs] at he
      exact (FailsAt.not_nil he).elim
    · rw [hs] at he
      exact (hat i).run he

section

variable {label : Labeling} {steps : Event → List Step} (m : Multiplicity) (h : Blames label steps)

include h

theorem labelClones (template : Event) : ∀ copies index,
    Blames (m.labelClones label template copies index)
      fun _ => m.cloneSteps label steps template copies index
  | 0, _ => silent fun he => by cases he
  | copies + 1, index => by
    have hrest := labelClones template copies (index + 1)
    constructor
    · intro e err s he
      rw [Multiplicity.labelClones] at he
      rw [Multiplicity.cloneSteps]
      rcases hc : m.clone template index with err' | copy
      · rw [hc] at he
        cases he
        exact .inl (m.setPersonIndex_sparesModel index _ err hc)
      · simp only [hc] at he
        rcases hl : label copy with ⟨⟨⟩, labeled⟩ | ⟨err', s'⟩
        · rw [hl] at he
          simp only [hl, FailsAt.append_iff]
          exact (hrest.leaf he).imp_right .inr
        · rw [hl] at he
          cases he
          simp only [hl]
          exact h.leaf hl
    · intro e err he
      rw [Multiplicity.cloneSteps] at he
      rw [Multiplicity.labelClones]
      rcases hc : m.clone template index with err' | copy
      · rw [hc] at he
        exact (FailsAt.not_nil he).elim
      · simp only [hc] at he
        rcases hl : label copy with ⟨⟨⟩, labeled⟩ | ⟨err', s'⟩
        · simp only [hl, FailsAt.append_iff] at he
          rcases he with he | he
          · obtain ⟨s, hs⟩ := h.run he
            rw [hl] at hs
            cases hs
          · simp only [hl]
            exact hrest.run he
        · simp only [hl] at he
          obtain ⟨s, hs⟩ := h.run he
          rw [hl] at hs
          cases hs
          simp only [hl]
          exact ⟨_, rfl⟩

theorem expand : Blames (m.expand label) (m.expandSteps label steps) := by
  constructor
  · intro e err s he
    rcases hcount : m.count e with err' | copies
    · simp only [Multiplicity.expand, hcount] at he
      cases he
      exact .inl (m.count_sparesModel e err hcount)
    by_cases hone : copies = 1
    · subst hone
      simp only [Multiplicity.expand, hcount] at he
      rcases hfirst : m.setPersonIndex 0 e with err' | first
      · rw [hfirst] at he
        cases he
        exact .inl (m.setPersonIndex_sparesModel 0 e err hfirst)
      · rw [hfirst] at he
        rw [Multiplicity.expandSteps_one hcount hfirst]
        exact h.leaf he
    · rw [Multiplicity.expand_of_count hcount hone] at he
      rw [Multiplicity.expandSteps_of_count hcount hone, FailsAt.split_iff]
      exact (h.labelClones m e copies 0).leaf he
  · intro e err he
    rcases hcount : m.count e with err' | copies
    · simp only [Multiplicity.expandSteps, hcount] at he
      exact (FailsAt.not_nil he).elim
    by_cases hone : copies = 1
    · subst hone
      rcases hfirst : m.setPersonIndex 0 e with err' | first
      · simp only [Multiplicity.expandSteps, hcount, hfirst] at he
        exact (FailsAt.not_nil he).elim
      · rw [Multiplicity.expandSteps_one hcount hfirst] at he
        simp only [Multiplicity.expand, hcount, hfirst]
        exact h.run he
    · rw [Multiplicity.expandSteps_of_count hcount hone, FailsAt.split_iff] at he
      rw [Multiplicity.expand_of_count hcount hone]
      exact (h.labelClones m e copies 0).run he

end

end Blames

mutual

theorem Node.blames : ∀ node : Node, Blames node.apply node.steps
  | ⟨_, _, _, kind⟩ => NodeKind.blames kind

theorem NodeKind.blames : ∀ kind : NodeKind, Blames kind.apply kind.steps
  | .branch children selector .none => .descend selector (applyAt_blames children)
  | .branch children selector (.updates us) =>
    (updateAll_blames us).andThen (.descend selector (applyAt_blames children))
  | .branch children selector (.multiplicity m) =>
    .expand m (.descend selector (applyAt_blames children))
  | .population leaf => .population leaf
  | .stop => .silent fun he => by cases he

theorem applyAt_blames : ∀ (children : List Node) (i : Nat),
    Blames (applyAt children i) (stepsAt children i)
  | [], _ => .silent fun he => by
    cases he
    trivial
  | node :: _, 0 => node.blames
  | _ :: rest, i + 1 => applyAt_blames rest i

theorem updateAll_blames : ∀ us : List Update, Blames (updateAll us) (updateSteps us)
  | [] => .silent fun he => by cases he
  | u :: rest => u.blames.andThen (updateAll_blames rest)

theorem Update.blames : ∀ u : Update, Blames u.apply u.steps
  | .matrix _ => .silent ColumnMatcher.mergeRow_sparesModel
  | .sparseMatrix _ => .silent ColumnMatcher.mergeRow_sparesModel
  | .merge _ => .silent ConditionalMerge.update_sparesModel
  | .assignment _ => .silent ConditionalAssignment.update_sparesModel
  | .shredder _ => .silent Shredder.update_sparesModel
  | .tree root => root.blames

end

namespace Node

/-- A run of a built tree fails with a fault of the event, or with a fault of the model; and with
a fault of the model just when it gives a leaf an event that is refused for it. -/
theorem blames_model_iff {node : Node} (h : node.Built) (e : Event) :
    (∀ err s, node.apply e = .error err s →
      (∃ fault, err = .invalidEvent fault) ∨ ∃ fault, err = .invalidModel fault) ∧
    ∀ fault, (∃ s, node.apply e = .error (.invalidModel fault) s) ↔
      ∃ leaf e', Step.assign leaf e' ∈ node.steps e ∧ e'.RefusedFor fault := by
  constructor
  · intro err s he
    have hevent : err.SparesModel → ∃ fault, err = .invalidEvent fault := by
      intro hspares
      cases err with
      | invalidEvent fault => exact ⟨fault, rfl⟩
      | internal fault =>
        have hall := all_of_built Parts.inRange_ofBuilds h
        exact absurd he (node.apply_neverInternal hall e fault s)
      | _ => exact hspares.elim
    rcases node.blames.leaf he with hspares | ⟨leaf, e', -, herr⟩
    · exact .inl (hevent hspares)
    · rcases leaf.apply_eq_error herr with hspares | ⟨fault, -, rfl⟩
      · exact .inl (hevent hspares)
      · exact .inr ⟨fault, rfl⟩
  · intro fault
    constructor
    · rintro ⟨s, he⟩
      rcases node.blames.leaf he with hspares | ⟨leaf, e', hmem, herr⟩
      · exact hspares.elim
      · rcases leaf.apply_eq_error herr with hspares | ⟨fault', hfault, heq⟩
        · exact hspares.elim
        · cases heq
          exact ⟨leaf, e', hmem, hfault⟩
    · rintro ⟨leaf, e', hmem, hfault⟩
      exact node.blames.run ⟨leaf, e', hmem, leaf.apply_of_refused hfault⟩

/-- A leaf with one person. -/
def onePerson : NodeSpec := ⟨none, none, none, none, some ⟨[⟨10, 1⟩], none⟩, none⟩

/-- An event with a single candidate for its label, of weight one half. -/
def halfLabeled : Event :=
  let label : QuantumLabel := (none, [Schema.personLabel.fields.empty], [0.5], ())
  (none, none, none, none, none, none, none, none, none, some ([label], ()), [], ())

theorem blames_model_iff_halfLabeled :
    ∃ node, Built node ∧
      (∀ err s, node.apply halfLabeled = .error err s →
        (∃ fault, err = .invalidEvent fault) ∨ ∃ fault, err = .invalidModel fault) ∧
      ∀ fault, (∃ s, node.apply halfLabeled = .error (.invalidModel fault) s) ↔
        ∃ leaf e', Step.assign leaf e' ∈ node.steps halfLabeled ∧ e'.RefusedFor fault := by
  have hb : ∃ node, ofRoot onePerson = .ok node := ⟨_, rfl⟩
  obtain ⟨node, hb⟩ := hb
  exact ⟨node, .ofRoot hb, blames_model_iff (.ofRoot hb) halfLabeled⟩

/-- The model is blamed for the weight that the event brings along. -/
theorem halfLabeled_blames_model :
    ∃ node, Built node ∧
      node.apply halfLabeled = .error (.invalidModel (.weightSum 0.5)) halfLabeled := by
  have hb : ∃ node, ofRoot onePerson = .ok node ∧
      node.apply halfLabeled = .error (.invalidModel (.weightSum 0.5)) halfLabeled :=
    ⟨_, rfl, rfl⟩
  obtain ⟨node, hb, h⟩ := hb
  exact ⟨node, .ofRoot hb, h⟩

end Node

end VirtualPeople
