import VirtualPeople.Proofs.Labeling.Steps
import VirtualPeople.Proofs.Model.Quiet
import VirtualPeople.Proofs.Multiplicity.Expanding

/-!
# The activities that a run adds

A run of a quiet node keeps the activities of an event and adds those that its leaves record
(`Node.adds`), but a split of an event that has activities also adds these again, once for each
copy. So the activities are conserved just when no such event is split
(`Node.conserves_iff_splitsFresh`), as an update tree and a multiplicity below it can do.
-/

namespace VirtualPeople

/-- A run keeps the activities before it and adds at least those that its leaves record, and
nothing else just when it splits no event that has activities. -/
def Adds (steps : List Step) (before after : List Activity) : Prop :=
  ∃ added extra, Records steps added ∧ after = before ++ extra ∧ added.Sublist extra ∧
    (SplitsFresh steps ↔ added = extra)

namespace Adds

variable {steps steps' : List Step} {before mid after : List Activity}

theorem nil (before : List Activity) : Adds [] before before :=
  ⟨[], [], .nil, (List.append_nil before).symm, .slnil,
    ⟨fun _ => rfl, fun _ _ _ h => (List.not_mem_nil h).elim⟩⟩

/-- A run without steps that leaves the activities adds nothing. -/
theorem of_leaves {label : Labeling} {e e' : Event} (h : label e = .ok () e')
    (hsame : Event.activities (label.leaves e) = Event.activities e) :
    Adds [] (Event.activities e) (Event.activities e') := by
  rw [Labeling.leaves_of_ok h] at hsame
  rw [hsame]
  exact nil (Event.activities e)

theorem append_eq_iff {added added' extra extra' : List Activity} (h : added.Sublist extra)
    (h' : added'.Sublist extra') :
    added ++ added' = extra ++ extra' ↔ added = extra ∧ added' = extra' := by
  constructor
  · intro heq
    have hlen := congrArg List.length heq
    rw [List.length_append, List.length_append] at hlen
    have hle := h.length_le
    have hle' := h'.length_le
    exact ⟨h.eq_of_length (by omega), h'.eq_of_length (by omega)⟩
  · rintro ⟨heq, heq'⟩
    rw [heq, heq']

theorem append (h : Adds steps before mid) (h' : Adds steps' mid after) :
    Adds (steps ++ steps') before after := by
  obtain ⟨added, extra, hrec, rfl, hsub, hiff⟩ := h
  obtain ⟨added', extra', hrec', rfl, hsub', hiff'⟩ := h'
  refine ⟨added ++ added', extra ++ extra', hrec.append hrec', ?_, hsub.append hsub', ?_⟩
  · rw [List.append_assoc]
  · rw [splitsFresh_append, append_eq_iff hsub hsub', hiff, hiff']

theorem split {copies : Nat} {e : Event} (h : Adds steps before after)
    (hfresh : 2 ≤ copies → Event.activities e = []) :
    Adds (.split copies e :: steps) before after := by
  obtain ⟨added, extra, hrec, hafter, hsub, hiff⟩ := h
  refine ⟨added, extra, hrec.split, hafter, hsub, ?_⟩
  rw [splitsFresh_split, ← hiff]
  exact and_iff_right hfresh

/-- What a run adds does not depend on what there was before. -/
theorem onto (h : Adds steps [] after) (before : List Activity) :
    Adds steps before (before ++ after) := by
  obtain ⟨added, extra, hrec, hafter, hsub, hiff⟩ := h
  exact ⟨added, extra, hrec, by rw [hafter, List.nil_append], hsub, hiff⟩

end Adds

namespace Population

variable {leaf : Population} {e e' : Event}

theorem apply_eq_ok_iff_assigned : leaf.apply e = .ok e' ↔
    ∃ a, leaf.assigned e = .ok a ∧ e' = e.withActivities (Event.activities e ++ [a]) := by
  simp only [apply, bind_eq_ok, pure_eq_ok, eq_comm (b := e')]

theorem apply_eq_error_iff_assigned {err : Error} :
    leaf.apply e = .error err ↔ leaf.assigned e = .error err := by
  unfold apply
  rcases leaf.assigned e with err' | a
  · simp [bind, Except.bind]
  · simp [bind, Except.bind, pure, Except.pure]

/-- The activity of an event without any depends on what can be made of its labels alone. -/
theorem assigned_of_empty (h : Event.activities e = []) : leaf.assigned e =
    Activity.ofPerson (leaf.personId e.fingerprint) <$>
      label e (leaf.personId e.fingerprint) := by
  unfold assigned
  rw [h, List.isEmpty_nil, if_pos rfl]
  rfl

theorem assigned_of_ne_nil (h : Event.activities e ≠ []) :
    leaf.assigned e = invalidEvent .activitiesPresent :=
  if_neg fun hempty => h (List.isEmpty_iff.1 hempty)

theorem apply_eq_ok (h : leaf.apply e = .ok e') :
    Event.activities e = [] ∧ ∃ a, e' = e.withActivities [a] := by
  obtain ⟨a, ha, rfl⟩ := apply_eq_ok_iff_assigned.1 h
  by_cases hempty : Event.activities e = []
  · exact ⟨hempty, a, by rw [hempty, List.nil_append]⟩
  · rw [assigned_of_ne_nil hempty] at ha
    exact (invalidEvent_ne_ok ha).elim

end Population

theorem Population.adds {leaf : Population} {e e' : Event} (h : leaf.apply e = .ok e') :
    Adds [.assign leaf e] (Event.activities e) (Event.activities e') := by
  obtain ⟨hempty, a, rfl⟩ := apply_eq_ok h
  refine ⟨[a], [a], .assign h .nil, by rw [hempty]; rfl, List.Sublist.refl _, ?_⟩
  simp [SplitsFresh]

theorem change_eq_ok {f : Event → Except Error Event} {e e' : Event}
    (h : Labeling.change f e = .ok () e') : f e = .ok e' := by
  unfold Labeling.change at h
  split at h
  · cases h
    assumption
  · cases h

theorem change_eq_ok_iff {f : Event → Except Error Event} {e e' : Event} :
    Labeling.change f e = .ok () e' ↔ f e = .ok e' := by
  refine ⟨change_eq_ok, fun h => ?_⟩
  unfold Labeling.change
  rw [h]

theorem change_eq_error_iff {f : Event → Except Error Event} {e e' : Event} {err : Error} :
    Labeling.change f e = .error err e' ↔ f e = .error err ∧ e' = e := by
  unfold Labeling.change
  rcases f e with err' | s
  · simp [eq_comm]
  · simp

namespace Multiplicity

variable {m : Multiplicity} {label : Labeling} {steps : Event → List Step} {e e' : Event}

theorem cloneSteps_succ {template copy labeled : Event} {copies index : Nat}
    (hc : m.clone template index = .ok copy) (hl : label copy = .ok () labeled) :
    m.cloneSteps label steps template (copies + 1) index =
      steps copy ++ m.cloneSteps label steps template copies (index + 1) := by
  simp only [cloneSteps, hc, hl]

theorem expandSteps_one {first : Event} (h : m.count e = .ok 1)
    (hfirst : m.setPersonIndex 0 e = .ok first) : m.expandSteps label steps e = steps first := by
  unfold expandSteps
  simp only [h, hfirst]

theorem expandSteps_of_count {copies : Nat} (h : m.count e = .ok copies) (hne : copies ≠ 1) :
    m.expandSteps label steps e = .split copies e :: m.cloneSteps label steps e copies 0 := by
  unfold expandSteps
  rw [h]
  rcases copies with _ | _ | copies
  · rfl
  · exact absurd rfl hne
  · rfl

variable (hl : ∀ {e e'}, label e = .ok () e' →
  Adds (steps e) (Event.activities e) (Event.activities e'))

include hl

/-- The copies of an event without activities add what their leaves record. -/
theorem labelClones_adds {template : Event} (hempty : Event.activities template = []) :
    ∀ {copies index e e'}, m.labelClones label template copies index e = .ok () e' →
      Adds (m.cloneSteps label steps template copies index) (Event.activities e)
        (Event.activities e')
  | 0, _, e, _, h => by
    cases h
    exact .nil (Event.activities e)
  | copies + 1, index, e, e', h => by
    obtain ⟨copy, labeled, hc, hlabel, hrest⟩ := labelClones_succ h
    have hcopy := hl hlabel
    rw [activities_clone hc, hempty] at hcopy
    have hothers := labelClones_adds hempty hrest
    rw [cloneSteps_succ hc hlabel]
    exact (hcopy.onto (Event.activities e)).append hothers

/-- Every copy adds the activities of its event again. -/
theorem labelClones_repeats {template : Event} :
    ∀ {copies index e e'}, m.labelClones label template copies index e = .ok () e' →
      ∃ added extra, Records (m.cloneSteps label steps template copies index) added ∧
        Event.activities e' = Event.activities e ++ extra ∧ added.Sublist extra ∧
        added.length + copies * (Event.activities template).length ≤ extra.length
  | 0, _, e, _, h => by
    cases h
    exact ⟨[], [], .nil, (List.append_nil _).symm, .slnil, by simp⟩
  | copies + 1, index, e, e', h => by
    obtain ⟨copy, labeled, hc, hlabel, hrest⟩ := labelClones_succ h
    obtain ⟨added, extra, hrec, hafter, hsub, -⟩ := hl hlabel
    obtain ⟨added', extra', hrec', hafter', hsub', hlen'⟩ := labelClones_repeats hrest
    rw [activities_clone hc] at hafter
    refine ⟨added ++ added', Event.activities template ++ extra ++ extra', ?_, ?_, ?_, ?_⟩
    · rw [cloneSteps_succ hc hlabel]
      exact hrec.append hrec'
    · rw [hafter', Event.activities_withActivities, hafter]
      simp only [List.append_assoc]
    · exact (hsub.trans (List.sublist_append_right _ _)).append hsub'
    · have hlen := hsub.length_le
      simp only [List.length_append, Nat.add_mul, Nat.one_mul]
      omega

theorem expand_adds (h : m.expand label e = .ok () e') :
    Adds (m.expandSteps label steps e) (Event.activities e) (Event.activities e') := by
  rcases hcount : m.count e with err | copies
  · simp only [expand, hcount] at h
    cases h
  by_cases hone : copies = 1
  · subst hone
    obtain ⟨first, hfirst, h⟩ := (expand_one_eq_ok hcount).1 h
    rw [expandSteps_one hcount hfirst, ← activities_setPersonIndex hfirst]
    exact hl h
  rw [expand_of_count hcount hone] at h
  rw [expandSteps_of_count hcount hone]
  rcases copies with _ | _ | copies
  · cases h
    exact (Adds.nil (Event.activities e)).split (by omega)
  · exact absurd rfl hone
  by_cases hempty : Event.activities e = []
  · exact (labelClones_adds hl hempty h).split fun _ => hempty
  · obtain ⟨added, extra, hrec, hafter, hsub, hlen⟩ := labelClones_repeats hl h
    refine ⟨added, extra, hrec.split, hafter, hsub, ?_⟩
    have hpos := List.length_pos_iff.2 hempty
    constructor
    · intro hfresh
      exact absurd ((splitsFresh_split.1 hfresh).1 (by omega)) hempty
    · intro heq
      rw [heq, Nat.add_mul] at hlen
      omega

end Multiplicity

theorem descend_adds {children : List Node} {selector : Selector}
    (hat : ∀ {i e e'}, applyAt children i e = .ok () e' →
      Adds (stepsAt children i e) (Event.activities e) (Event.activities e')) {e e' : Event}
    (h : descend children selector e = .ok () e') :
    Adds (match selector.select e with
      | .error _ => []
      | .ok i => stepsAt children i e) (Event.activities e) (Event.activities e') := by
  unfold descend at h
  rcases hs : selector.select e with err | i
  · rw [hs] at h
    cases h
  · rw [hs] at h
    exact hat h

mutual

theorem Node.adds : ∀ (node : Node) {e e'}, node.Quiet → node.apply e = .ok () e' →
    Adds (node.steps e) (Event.activities e) (Event.activities e')
  | ⟨_, _, _, kind⟩, _, _, hq, h => NodeKind.adds kind hq h

theorem NodeKind.adds : ∀ (kind : NodeKind) {e e'}, kind.Quiet → kind.apply e = .ok () e' →
    Adds (kind.steps e) (Event.activities e) (Event.activities e')
  | .branch children selector .none, _, _, hq, h =>
    descend_adds (applyAt_adds children hq.1) h
  | .branch children selector (.updates us), e, e', hq, h => by
    simp only [NodeKind.apply] at h
    simp only [NodeKind.steps]
    rcases hu : updateAll us e with ⟨⟨⟩, mid⟩ | ⟨err, s⟩
    · rw [hu] at h
      have hmid := updateAll_adds us hq.2 hu
      exact hmid.append (descend_adds (applyAt_adds children hq.1) h)
    · rw [hu] at h
      cases h
  | .branch children selector (.multiplicity m), _, _, hq, h =>
    Multiplicity.expand_adds (descend_adds (applyAt_adds children hq.1)) h
  | .population leaf, _, _, _, h => Population.adds (change_eq_ok h)
  | .stop, e, _, _, h => by
    cases h
    exact .nil (Event.activities e)

theorem applyAt_adds : ∀ (children : List Node) {i e e'}, childrenQuiet children →
    applyAt children i e = .ok () e' →
    Adds (stepsAt children i e) (Event.activities e) (Event.activities e')
  | [], _, _, _, _, h => by cases h
  | node :: _, 0, _, _, hq, h => Node.adds node hq.1 h
  | _ :: rest, _ + 1, _, _, hq, h => applyAt_adds rest hq.2 h

theorem updateAll_adds : ∀ (us : List Update) {e e'}, allQuiet us → updateAll us e = .ok () e' →
    Adds (updateSteps us e) (Event.activities e) (Event.activities e')
  | [], e, _, _, h => by
    cases h
    exact .nil (Event.activities e)
  | u :: rest, e, e', hq, h => by
    simp only [updateAll] at h
    simp only [updateSteps]
    rcases hu : u.apply e with ⟨⟨⟩, mid⟩ | ⟨err, s⟩
    · rw [hu] at h
      exact (Update.adds u hq.1 hu).append (updateAll_adds rest hq.2 h)
    · rw [hu] at h
      cases h

theorem Update.adds : ∀ (u : Update) {e e'}, u.Quiet → u.apply e = .ok () e' →
    Adds (u.steps e) (Event.activities e) (Event.activities e')
  | .matrix _, e, _, hq, h => .of_leaves h (Matrix.activities_update hq e)
  | .sparseMatrix _, e, _, hq, h => .of_leaves h (SparseMatrix.activities_update hq e)
  | .merge _, e, _, hq, h => .of_leaves h (ConditionalMerge.activities_update hq e)
  | .assignment a, e, _, _, h => .of_leaves h (a.activities_update e)
  | .shredder s, e, _, _, h => .of_leaves h (s.activities_update e)
  | .tree root, _, _, hq, h => Node.adds root hq h

end

/-- A tree built of a root, or of a list of nodes, in which no update carries activities. -/
inductive QuietlyBuilt : Node → Prop
  | ofRoot {root : NodeSpec} {node : Node} (hq : root.Quiet) (h : Node.ofRoot root = .ok node) :
    QuietlyBuilt node
  | ofNodes {nodes : List NodeSpec} {node : Node} (hq : ∀ n ∈ nodes, n.Quiet)
    (h : Node.ofNodes nodes = .ok node) : QuietlyBuilt node

theorem QuietlyBuilt.quiet {node : Node} (h : QuietlyBuilt node) : node.Quiet := by
  cases h with
  | ofRoot hq h => exact Node.quiet_of_ofRoot hq h
  | ofNodes hq h => exact Node.quiet_of_ofNodes hq h

namespace Node

/-- A run adds one activity for each leaf that runs, in order, and nothing else, just when it
splits no event that has activities into several copies. -/
theorem conserves_iff_splitsFresh {node : Node} (hb : QuietlyBuilt node) {e e' : Event}
    (h : node.apply e = .ok () e') :
    (∃ added, Records (node.steps e) added ∧
        Event.activities e' = Event.activities e ++ added) ↔ SplitsFresh (node.steps e) := by
  obtain ⟨added, extra, hrec, hafter, -, hiff⟩ := node.adds hb.quiet h
  rw [hiff, hafter]
  constructor
  · rintro ⟨others, hothers, heq⟩
    rw [hrec.unique hothers]
    exact (List.append_cancel_left heq).symm
  · rintro rfl
    exact ⟨added, hrec, rfl⟩

/-- A tree that assigns a person in an update, and then splits the event into two copies that
stop. -/
def splitAfterLeaf : NodeSpec :=
  let always : FilterSpec := ⟨.always, none, none, []⟩
  let leaf : NodeSpec := ⟨none, none, none, none, some ⟨[⟨0, 0⟩], none⟩, none⟩
  let stop : NodeSpec := ⟨none, none, none, none, none, some ()⟩
  let twice : MultiplicitySpec :=
    ⟨some 2.0, none, some 2.0, some false, some "multiplicity_person_index", some ""⟩
  let split : NodeSpec :=
    ⟨none, none, none, some ⟨[⟨some stop, none, none, some always⟩], none, none, some twice⟩,
      none, none⟩
  ⟨none, none, none,
    some ⟨[⟨some split, none, none, some always⟩], none,
      some [⟨none, none, none, none, none, some (some leaf)⟩], none⟩,
    none, none⟩

theorem splitAfterLeaf_quiet : splitAfterLeaf.Quiet := by
  simp [splitAfterLeaf, NodeSpec.Quiet, BranchSpec.Quiet, edgesQuiet, EdgeSpec.Quiet, updatesQuiet,
    UpdateSpec.Quiet]

theorem conserves_iff_splitAfterLeaf :
    ∃ node e', QuietlyBuilt node ∧ node.apply .empty = .ok () e' ∧
      ((∃ added, Records (node.steps .empty) added ∧ Event.activities e' = [] ++ added) ↔
        SplitsFresh (node.steps .empty)) := by
  have hb : ∃ node e', ofRoot splitAfterLeaf = .ok node ∧ node.apply .empty = .ok () e' :=
    ⟨_, _, rfl, rfl⟩
  obtain ⟨node, e', hb, h⟩ := hb
  have hq := QuietlyBuilt.ofRoot splitAfterLeaf_quiet hb
  exact ⟨node, e', hq, h, conserves_iff_splitsFresh hq h⟩

/-- One leaf runs, and its activity stands there three times. -/
theorem splitAfterLeaf_not_conserved :
    ∃ node e', QuietlyBuilt node ∧ node.apply .empty = .ok () e' ∧
      ¬ ∃ added, Records (node.steps .empty) added ∧ Event.activities e' = [] ++ added := by
  have hb : ∃ node e', ofRoot splitAfterLeaf = .ok node ∧ node.apply .empty = .ok () e' ∧
      (Event.activities e').length = 3 ∧ (node.steps .empty).length = 2 :=
    ⟨_, _, rfl, rfl, rfl, rfl⟩
  obtain ⟨node, e', hb, h, hthree, htwo⟩ := hb
  refine ⟨node, e', .ofRoot splitAfterLeaf_quiet hb, h, ?_⟩
  rintro ⟨added, hrec, heq⟩
  have hle := hrec.length_le
  rw [heq, List.nil_append] at hthree
  omega

end Node

end VirtualPeople
