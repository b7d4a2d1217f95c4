import VirtualPeople.Proofs.Labeling.Activities
import VirtualPeople.Proofs.Record.Lenses
import VirtualPeople.Proofs.Record.Merging

/-!
# What a leaf adds

A leaf fails and leaves the event alone, or adds one activity to an event that has none
(`Population.adds_one_or_nothing`). The id comes from the pools, the seed of the leaf and the
fingerprint alone. The label is made by merging, so each of its scalars is the one that was merged
last (`Fields.get_foldl_merge`): that of the event's own label, or else that of the last quantum
label whose candidate has one.
-/

namespace VirtualPeople

/-- Of records merged in order, the last that sets a scalar decides it. -/
theorem Fields.get_foldl_merge {fs : Fields} (f : ScalarField fs) :
    ∀ (rs : List fs.Record) (r : fs.Record),
      f.get (rs.foldl fs.merge r) = (rs.reverse.findSome? f.get).or (f.get r)
  | [], r => rfl
  | s :: rs, r => by
    rw [List.foldl_cons, get_foldl_merge f rs, f.get_merge, List.reverse_cons,
      List.findSome?_append, List.findSome?_singleton, Option.or_assoc]

namespace QuantumLabel

/-- The key that a candidate is chosen by. -/
def key (suffix : String) (q : QuantumLabel) : String :=
  "quantum-label-collapse-" ++ q.seed.getD "" ++ suffix

/-- The weights of a label, one for each candidate, pick a candidate by its key. -/
structure Chooses (suffix : String) (q : QuantumLabel) (candidate : PersonLabel) : Prop where
  length : q.labels.length = q.probabilities.length
  picked : ∃ weights, Distribution.ofWeights q.probabilities = .ok weights ∧
    q.labels[weights.pick (q.key suffix)]? = some candidate

variable {suffix : String}

theorem collapse_eq_ok {q : QuantumLabel} {candidate : PersonLabel} :
    q.collapse suffix = .ok candidate ↔ q.Chooses suffix candidate := by
  unfold collapse
  split_ifs with hempty hlength
  · rw [List.isEmpty_iff] at hempty
    refine iff_of_false invalidEvent_ne_ok fun ⟨_, weights, _, hpick⟩ => ?_
    rw [hempty] at hpick
    cases hpick
  · exact iff_of_false invalidEvent_ne_ok fun h => hlength h.length
  · rw [bind_eq_ok]
    constructor
    · rintro ⟨weights, hweights, h⟩
      refine ⟨Decidable.not_not.1 hlength, weights, hweights, ?_⟩
      split at h
      · rename_i picked hpick
        obtain rfl := pure_eq_ok.1 h
        exact hpick
      · cases h
    · intro h
      obtain ⟨weights, hweights, hpick⟩ := h.picked
      have hcandidate : q.labels[weights.pick ("quantum-label-collapse-" ++ q.seed.getD "" ++
          suffix)]? = some candidate := hpick
      refine ⟨weights, hweights, ?_⟩
      rw [hcandidate]
      rfl

/-- Labels are collapsed if each has a candidate, and the candidates are merged in order. -/
theorem collapseAll_eq_ok : ∀ {labels : List QuantumLabel} {label merged : PersonLabel},
    collapseAll suffix label labels = .ok merged ↔
      ∃ candidates, List.Forall₂ (Chooses suffix) labels candidates ∧
        candidates.foldl Schema.personLabel.fields.merge label = merged
  | [], label, merged => by simp [collapseAll]
  | q :: rest, label, merged => by
    simp only [collapseAll, bind_eq_ok, collapse_eq_ok, collapseAll_eq_ok]
    constructor
    · rintro ⟨candidate, hcandidate, candidates, hcandidates, rfl⟩
      exact ⟨candidate :: candidates, .cons hcandidate hcandidates, rfl⟩
    · rintro ⟨_, hcandidates, rfl⟩
      obtain ⟨candidate, candidates, hcandidate, hrest, rfl⟩ :=
        List.forall₂_cons_left_iff.1 hcandidates
      exact ⟨candidate, hcandidate, candidates, hrest, rfl⟩

end QuantumLabel

namespace Event

variable {e : Event} {id : Option Int64} {candidates : List PersonLabel}

/-- What stands behind the seed of a quantum label in its key: the id, or the fingerprint. -/
def labelSuffix (e : Event) : Option Int64 → String
  | some id => (Value.int64 id).text
  | none => (Value.uint64 (fingerprint e)).text

/-- The candidates that the quantum labels of an event are collapsed to, in order. -/
def Candidates (e : Event) (id : Option Int64) (candidates : List PersonLabel) : Prop :=
  List.Forall₂ (QuantumLabel.Chooses (labelSuffix e id)) ((quantumLabels e).getD []) candidates

/-- The label that candidates and the own label of an event are merged to. -/
def mergedLabel (e : Event) (candidates : List PersonLabel) : Option PersonLabel :=
  match quantumLabels e with
  | none => label e
  | some _ =>
    some (Schema.personLabel.fields.merge
      (candidates.foldl Schema.personLabel.fields.merge Schema.personLabel.fields.empty)
      ((label e).getD Schema.personLabel.fields.empty))

theorem mergedLabel_eq_none :
    mergedLabel e candidates = none ↔ label e = none ∧ quantumLabels e = none := by
  unfold mergedLabel
  rcases quantumLabels e with _ | labels
  · simp
  · simp

/-- A scalar of the label is that of the own label, or else of the last candidate that has one. -/
theorem get_mergedLabel (hc : Candidates e id candidates) {l : PersonLabel}
    (h : mergedLabel e candidates = some l) (f : ScalarField Schema.personLabel.fields) :
    f.get l = ((label e).bind f.get).or (candidates.reverse.findSome? f.get) := by
  unfold mergedLabel at h
  unfold Candidates at hc
  rcases hlabels : quantumLabels e with _ | labels
  · rw [hlabels] at h hc
    obtain rfl := List.forall₂_nil_left_iff.1 hc
    simp only at h
    rw [h]
    simp
  · rw [hlabels] at h
    obtain rfl := Option.some.inj h
    have hempty : f.get Schema.personLabel.fields.empty = none := f.path.get_empty
    rw [f.get_merge, Fields.get_foldl_merge, hempty, Option.or_none]
    rcases label e with _ | own
    · rw [Option.getD_none, hempty]
      rfl
    · rfl

end Event

namespace Population

variable {e : Event} {id : Option Int64}

theorem label_of_none (h : Event.quantumLabels e = none) :
    Population.label e id = .ok (Event.label e) := by
  unfold Population.label
  rw [h]
  rcases Event.label e with _ | own
  · rfl
  · exact congrArg (Except.ok ∘ some) (Fields.empty_merge own)

theorem label_of_some {labels : List QuantumLabel} (h : Event.quantumLabels e = some labels) :
    Population.label e id =
      (QuantumLabel.collapseAll (e.labelSuffix id) Schema.personLabel.fields.empty labels).map
        fun collapsed => some (Schema.personLabel.fields.merge collapsed
          ((Event.label e).getD Schema.personLabel.fields.empty)) := by
  have hlabel : Population.label e id = (do
      let collapsed ← some <$> QuantumLabel.collapseAll (e.labelSuffix id)
        Schema.personLabel.fields.empty labels
      Option.elim (Event.label e) (return collapsed) fun own =>
        return some (Schema.personLabel.fields.merge
          (collapsed.getD Schema.personLabel.fields.empty) own)) := by
    unfold Population.label
    rw [h]
    rcases Event.label e <;> cases id <;> rfl
  rw [hlabel]
  rcases QuantumLabel.collapseAll (e.labelSuffix id) _ labels with err | collapsed
  · rfl
  · rcases Event.label e with _ | own
    · exact congrArg (Except.ok ∘ some) (Fields.merge_empty collapsed).symm
    · rfl

/-- A label is made if every quantum label has a candidate. -/
theorem label_eq_ok {merged : Option PersonLabel} : Population.label e id = .ok merged ↔
    ∃ candidates, e.Candidates id candidates ∧ e.mergedLabel candidates = merged := by
  unfold Event.Candidates Event.mergedLabel
  rcases hlabels : Event.quantumLabels e with _ | labels
  · rw [label_of_none hlabels]
    simp
  · rw [label_of_some hlabels, Option.getD_some]
    constructor
    · intro h
      rcases hall : QuantumLabel.collapseAll (e.labelSuffix id) _ labels with err | collapsed
      · rw [hall] at h
        cases h
      · rw [hall] at h
        obtain ⟨candidates, hcandidates, rfl⟩ := QuantumLabel.collapseAll_eq_ok.1 hall
        exact ⟨candidates, hcandidates, Except.ok.inj h⟩
    · rintro ⟨candidates, hcandidates, rfl⟩
      rw [QuantumLabel.collapseAll_eq_ok.2 ⟨candidates, hcandidates, rfl⟩]
      rfl

variable {leaf : Population} {e' : Event}

/-- A leaf runs on an event without activities whose quantum labels all have a candidate. -/
theorem apply_eq_ok_iff : leaf.apply e = .ok e' ↔
    Event.activities e = [] ∧ ∃ candidates, e.Candidates (leaf.personId e.fingerprint) candidates ∧
      e' = e.withActivities
        [(leaf.personId e.fingerprint, e.mergedLabel candidates, ())] := by
  rw [apply_eq_ok_iff_assigned]
  by_cases hempty : Event.activities e = []
  · simp only [assigned_of_empty hempty, map_eq_ok, label_eq_ok, hempty, List.nil_append]
    constructor
    · rintro ⟨_, ⟨_, ⟨candidates, hcandidates, rfl⟩, rfl⟩, rfl⟩
      exact ⟨trivial, candidates, hcandidates, rfl⟩
    · rintro ⟨-, candidates, hcandidates, rfl⟩
      exact ⟨_, ⟨_, ⟨candidates, hcandidates, rfl⟩, rfl⟩, rfl⟩
  · rw [assigned_of_ne_nil hempty]
    refine iff_of_false ?_ fun h => hempty h.1
    rintro ⟨_, h, -⟩
    exact invalidEvent_ne_ok h

end Population

/-- The id that pools and a seed lead a fingerprint to. -/
def Pool.personId (pools : List Pool) (seed : String) (actingFingerprint : UInt64) :
    Option Int64 :=
  if pools = [⟨0, 0⟩] then none
  else (IdSpace.ofPools pools).toOption.map fun ids =>
    .ofInt (ids.personId (fingerprint (seed ++ (Value.uint64 actingFingerprint).text)))

namespace PopulationSpec

variable {spec : PopulationSpec} {leaf : Population}

theorem personId_of_build (h : spec.build = .ok leaf) (actingFingerprint : UInt64) :
    leaf.personId actingFingerprint =
      Pool.personId spec.pools (spec.seed.getD "") actingFingerprint := by
  unfold build at h
  unfold Pool.personId
  simp only at h
  split_ifs at h ⊢ with hempty
  · obtain rfl := pure_eq_ok.1 h
    rfl
  · simp only [bind_eq_ok, pure_eq_ok] at h
    obtain ⟨ids, hids, rfl⟩ := h
    rw [hids]
    rfl

theorem personId_eq_none (h : spec.build = .ok leaf) (actingFingerprint : UInt64) :
    leaf.personId actingFingerprint = none ↔ spec.pools = [⟨0, 0⟩] := by
  unfold build at h
  simp only at h
  split_ifs at h with hempty
  · obtain rfl := pure_eq_ok.1 h
    exact iff_of_true rfl hempty
  · simp only [bind_eq_ok, pure_eq_ok] at h
    obtain ⟨ids, -, rfl⟩ := h
    exact iff_of_false (Option.some_ne_none _) hempty

/-- The activity that a leaf assigns to an event. -/
structure Assigns (spec : PopulationSpec) (e : Event) (a : Activity) : Prop where
  personId : Activity.personId a =
    Pool.personId spec.pools (spec.seed.getD "") (Event.fingerprint e)
  noId : Activity.personId a = none ↔ spec.pools = [⟨0, 0⟩]
  noLabel : Activity.label a = none ↔ Event.label e = none ∧ Event.quantumLabels e = none
  merged : ∃ candidates, Event.Candidates e (Activity.personId a) candidates ∧
    ∀ l, Activity.label a = some l → ∀ f : ScalarField Schema.personLabel.fields,
      f.get l = ((Event.label e).bind f.get).or (candidates.reverse.findSome? f.get)

theorem assigns_of_build (h : spec.build = .ok leaf) {e : Event} {candidates : List PersonLabel}
    (hc : e.Candidates (leaf.personId e.fingerprint) candidates) :
    spec.Assigns e (leaf.personId e.fingerprint, e.mergedLabel candidates, ()) where
  personId := personId_of_build h e.fingerprint
  noId := personId_eq_none h e.fingerprint
  noLabel := Event.mergedLabel_eq_none
  merged := ⟨candidates, hc, fun _ hl f => Event.get_mergedLabel hc hl f⟩

end PopulationSpec

namespace Population

/-- A leaf only reads an event before its one push: it fails with the failure to find an activity,
and the event is as it was, or it appends the activity that it finds. It finds one for an event
without activities whose quantum labels all have a candidate. -/
theorem adds_one_or_nothing {spec : PopulationSpec} {leaf : Population}
    (h : spec.build = .ok leaf) (e : Event) :
    (∀ err e', (NodeKind.population leaf).apply e = .error err e' ↔
        leaf.assigned e = .error err ∧ e' = e) ∧
      ((∃ e', (NodeKind.population leaf).apply e = .ok () e') ↔
        Event.activities e = [] ∧
          ∃ candidates, e.Candidates (leaf.personId e.fingerprint) candidates) ∧
      ∀ e', (NodeKind.population leaf).apply e = .ok () e' →
        Event.activities e = [] ∧ ∃ a, leaf.assigned e = .ok a ∧ spec.Assigns e a ∧
          e' = e.withActivities (Event.activities e ++ [a]) := by
  unfold NodeKind.apply
  refine ⟨fun err e' => ?_, ?_, fun e' hrun => ?_⟩
  · rw [change_eq_error_iff, apply_eq_error_iff_assigned]
  · simp only [change_eq_ok_iff, apply_eq_ok_iff]
    constructor
    · rintro ⟨-, hempty, candidates, hcandidates, -⟩
      exact ⟨hempty, candidates, hcandidates⟩
    · rintro ⟨hempty, candidates, hcandidates⟩
      exact ⟨_, hempty, candidates, hcandidates, rfl⟩
  · have hrun := change_eq_ok hrun
    obtain ⟨a, ha, rfl⟩ := apply_eq_ok_iff_assigned.1 hrun
    obtain ⟨hempty, candidates, hcandidates, hsame⟩ := apply_eq_ok_iff.1 hrun
    have hactivities := congrArg Event.activities hsame
    rw [hempty, List.nil_append] at hactivities
    obtain rfl : a = _ := List.head_eq_of_cons_eq hactivities
    exact ⟨hempty, _, ha, PopulationSpec.assigns_of_build h hcandidates, rfl⟩

/-- A leaf of one person. -/
def onlyPerson : PopulationSpec := ⟨[⟨10, 1⟩], some "seed"⟩

/-- An event of a man, with a quantum label whose only candidate is a woman from 18 to 24. -/
def relabeled : Event :=
  let own : PersonLabel := (some (some .male, none, ()), ())
  let candidate : PersonLabel := (some (some .female, some (some 18, some 24, ()), ()), ())
  (none, none, none, none, none, none, none, none, some own,
    some ([(none, [candidate], [1.0], ())], ()), [], ())

theorem adds_one_or_nothing_relabeled :
    ∃ leaf, onlyPerson.build = .ok leaf ∧
      (∃ e', (NodeKind.population leaf).apply relabeled = .ok () e') ∧
      (∀ err e', (NodeKind.population leaf).apply relabeled = .error err e' ↔
        leaf.assigned relabeled = .error err ∧ e' = relabeled) ∧
      ((∃ e', (NodeKind.population leaf).apply relabeled = .ok () e') ↔
        Event.activities relabeled = [] ∧
          ∃ candidates, Event.Candidates relabeled (leaf.personId (Event.fingerprint relabeled))
            candidates) ∧
      ∀ e', (NodeKind.population leaf).apply relabeled = .ok () e' →
        Event.activities relabeled = [] ∧
          ∃ a, leaf.assigned relabeled = .ok a ∧ onlyPerson.Assigns relabeled a ∧
            e' = relabeled.withActivities (Event.activities relabeled ++ [a]) := by
  obtain ⟨leaf, h⟩ : ∃ leaf, onlyPerson.build = .ok leaf := ⟨_, rfl⟩
  have hruns := (adds_one_or_nothing h relabeled).2.1.2 ⟨rfl, _, .cons ⟨rfl, _, rfl, rfl⟩ .nil⟩
  exact ⟨leaf, h, hruns, adds_one_or_nothing h relabeled⟩

end Population

end VirtualPeople
