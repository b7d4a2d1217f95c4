import VirtualPeople.Proofs.Labeling.Activities
import VirtualPeople.Proofs.Model.Parts
import Mathlib.Data.List.Chain

/-!
# Labeling once

A run takes an event through a line of events (`Node.passes`), from the one it starts with to the
one it leaves, whether it succeeds or fails there (`Node.passes_spans`), and without multiplicity it
makes one change after another (`Node.passes_chain`). Only leaves touch the activities, and a leaf
refuses an event that has any; so along the whole line an event without activities gets one at most,
and those of any other event stay (`Node.labels_once`).
-/

namespace VirtualPeople

/-- The events of a single change. -/
def changePasses (label : Labeling) (e : Event) : List Event := [e, label.leaves e]

/-- The events that assignments pass through, up to the first that fails. -/
def Assignment.passes : List Assignment → Event → List Event
  | [], e => [e]
  | a :: rest, e =>
    match a.run e with
    | .ok () e' => e :: passes rest e'
    | .error _ e' => [e, e']

namespace Multiplicity

variable (m : Multiplicity) (label : Labeling) (passes : Event → List Event)

/-- The events that copies pass through, and between them the event that gathers their
activities. -/
def clonePasses (template : Event) : (copies : Nat) → (index : Nat) → Event → List Event
  | 0, _, e => [e]
  | copies + 1, index, e =>
    match m.clone template index with
    | .error _ => [e]
    | .ok copy =>
      match label copy with
      | .error _ _ => e :: passes copy ++ [e]
      | .ok () copy' =>
        e :: passes copy ++ clonePasses template copies (index + 1)
          (e.withActivities (e.activities ++ copy'.activities))

def expandPasses (e : Event) : List Event :=
  match m.count e with
  | .error _ => [e]
  | .ok 1 =>
    match m.setPersonIndex 0 e with
    | .error _ => [e]
    | .ok first => e :: passes first
  | .ok copies => m.clonePasses label passes e copies 0 e

end Multiplicity

def ConditionalAssignment.passes (a : ConditionalAssignment) (e : Event) : List Event :=
  if a.condition.holds e then Assignment.passes a.assignments e else [e]

mutual

/-- The events that a run passes through, one for each change that is made. -/
def Node.passes : Node → Event → List Event
  | ⟨_, _, _, kind⟩ => kind.passes

def NodeKind.passes : NodeKind → Event → List Event
  | .branch children selector action => fun e =>
    let descendPasses (e : Event) : List Event :=
      match selector.select e with
      | .error _ => [e]
      | .ok i => passesAt children i e
    match action with
    | .none => descendPasses e
    | .updates us =>
      match updateAll us e with
      | .ok () e' => updatePasses us e ++ descendPasses e'
      | .error _ _ => updatePasses us e
    | .multiplicity m => m.expandPasses (descend children selector) descendPasses e
  | .population leaf => changePasses (Labeling.change leaf.apply)
  | .stop => fun e => [e]

def passesAt : List Node → Nat → Event → List Event
  | [], _ => fun e => [e]
  | node :: _, 0 => node.passes
  | _ :: rest, i + 1 => passesAt rest i

def updatePasses : List Update → Event → List Event
  | [] => fun e => [e]
  | u :: rest => fun e =>
    match u.apply e with
    | .ok () e' => u.passes e ++ updatePasses rest e'
    | .error _ _ => u.passes e

def Update.passes : Update → Event → List Event
  | .matrix m => changePasses m.update
  | .sparseMatrix m => changePasses m.update
  | .merge m => changePasses m.update
  | .assignment a => a.passes
  | .shredder s => changePasses s.update
  | .tree root => root.passes

end

/-- A line of events from one to another. -/
def Spans (line : List Event) (e e' : Event) : Prop :=
  line.head? = some e ∧ line.getLast? = some e'

namespace Spans

variable {line line' : List Event} {e e' mid mid' : Event}

theorem single (e : Event) : Spans [e] e e := ⟨rfl, rfl⟩

theorem append (h : Spans line e mid) (h' : Spans line' mid' e') : Spans (line ++ line') e e' := by
  refine ⟨?_, ?_⟩
  · rw [List.head?_append, h.1, Option.some_or]
  · rw [List.getLast?_append, h'.2, Option.some_or]

theorem cons (e : Event) (h : Spans line mid e') : Spans (e :: line) e e' := (single e).append h

end Spans

theorem changePasses_spans (label : Labeling) (e : Event) :
    Spans (changePasses label e) e (label.leaves e) :=
  ⟨rfl, rfl⟩

theorem Assignment.passes_spans : ∀ (assignments : List Assignment) (e : Event),
    Spans (passes assignments e) e (Labeling.leaves (runAll assignments) e)
  | [], e => .single e
  | a :: rest, e => by
    simp only [passes, Labeling.leaves, runAll]
    rcases a.run e with ⟨⟨⟩, s⟩ | ⟨err, s⟩
    · exact (passes_spans rest s).cons e
    · exact ⟨rfl, rfl⟩

theorem ConditionalAssignment.passes_spans (a : ConditionalAssignment) (e : Event) :
    Spans (a.passes e) e (a.update.leaves e) := by
  unfold passes
  split_ifs with h
  · rw [Labeling.leaves_congr (update_of_holds h)]
    exact Assignment.passes_spans a.assignments e
  · rw [Labeling.leaves_of_ok (update_of_not_holds h)]
    exact .single e

namespace Multiplicity

variable {m : Multiplicity} {label : Labeling} {passes : Event → List Event}
  (hl : ∀ e, Spans (passes e) e (label.leaves e))

include hl

theorem clonePasses_spans (template : Event) : ∀ (copies index : Nat) (e : Event),
    Spans (m.clonePasses label passes template copies index e) e
      ((m.labelClones label template copies index).leaves e)
  | 0, _, e => .single e
  | copies + 1, index, e => by
    simp only [clonePasses, Labeling.leaves, labelClones]
    rcases m.clone template index with err | copy
    · exact .single e
    · rcases hcopy : label copy with ⟨⟨⟩, copy'⟩ | ⟨err, s⟩
      · simp only [hcopy]
        exact ((hl copy).cons e).append (clonePasses_spans template copies (index + 1) _)
      · simp only [hcopy]
        exact ((hl copy).cons e).append (.single e)

theorem expandPasses_spans (e : Event) :
    Spans (m.expandPasses label passes e) e ((m.expand label).leaves e) := by
  simp only [expandPasses, Labeling.leaves, expand]
  rcases m.count e with err | copies
  · exact .single e
  · rcases copies with _ | _ | copies
    · exact clonePasses_spans hl e 0 0 e
    · rcases m.setPersonIndex 0 e with err | first
      · exact .single e
      · exact (hl first).cons e
    · exact clonePasses_spans hl e (copies + 2) 0 e

end Multiplicity

theorem descendPasses_spans {children : List Node} (selector : Selector)
    (hat : ∀ i e, Spans (passesAt children i e) e ((applyAt children i).leaves e)) (e : Event) :
    Spans (match selector.select e with
      | .error _ => [e]
      | .ok i => passesAt children i e) e ((descend children selector).leaves e) := by
  simp only [descend, Labeling.leaves]
  rcases selector.select e with err | i
  · exact .single e
  · exact hat i e

mutual

/-- The events of a run lead from the one that is labeled to the one that is left. -/
theorem Node.passes_spans : ∀ (node : Node) (e : Event),
    Spans (node.passes e) e (node.apply.leaves e)
  | ⟨_, _, _, kind⟩, e => NodeKind.passes_spans kind e

theorem NodeKind.passes_spans : ∀ (kind : NodeKind) (e : Event),
    Spans (kind.passes e) e (kind.apply.leaves e)
  | .branch children selector .none, e =>
    descendPasses_spans selector (passesAt_spans children) e
  | .branch children selector (.updates us), e => by
    have hus := updatePasses_spans us e
    simp only [NodeKind.passes, NodeKind.apply, Labeling.leaves] at hus ⊢
    rcases hu : updateAll us e with ⟨⟨⟩, mid⟩ | ⟨err, s⟩
    · rw [hu] at hus
      exact hus.append (descendPasses_spans selector (passesAt_spans children) mid)
    · rwa [hu] at hus
  | .branch children selector (.multiplicity m), e =>
    Multiplicity.expandPasses_spans (descendPasses_spans selector (passesAt_spans children)) e
  | .population leaf, e => changePasses_spans (Labeling.change leaf.apply) e
  | .stop, e => .single e

theorem passesAt_spans : ∀ (children : List Node) (i : Nat) (e : Event),
    Spans (passesAt children i e) e ((applyAt children i).leaves e)
  | [], _, e => .single e
  | node :: _, 0, e => Node.passes_spans node e
  | _ :: rest, i + 1, e => passesAt_spans rest i e

theorem updatePasses_spans : ∀ (us : List Update) (e : Event),
    Spans (updatePasses us e) e (Labeling.leaves (updateAll us) e)
  | [], e => .single e
  | u :: rest, e => by
    have hhead := Update.passes_spans u e
    simp only [updatePasses, updateAll, Labeling.leaves] at hhead ⊢
    rcases hu : u.apply e with ⟨⟨⟩, mid⟩ | ⟨err, s⟩
    · rw [hu] at hhead
      exact hhead.append (updatePasses_spans rest mid)
    · rwa [hu] at hhead

theorem Update.passes_spans : ∀ (u : Update) (e : Event),
    Spans (u.passes e) e (u.apply.leaves e)
  | .matrix m, e => changePasses_spans m.update e
  | .sparseMatrix m, e => changePasses_spans m.update e
  | .merge m, e => changePasses_spans m.update e
  | .assignment a, e => a.passes_spans e
  | .shredder s, e => changePasses_spans s.update e
  | .tree root, e => Node.passes_spans root e

end

/-! ## One change after another -/

/-- One event is another, or what a single change by a part with a property leaves of it, whether it
succeeds or fails. -/
inductive Changes (P : Parts) : Event → Event → Prop
  | stays (e : Event) : Changes P e e
  | leaf {leaf : Population} (hP : P.leaf leaf) (e : Event) :
    Changes P e (Labeling.leaves (Labeling.change leaf.apply) e)
  | matrix {m : Matrix} (hP : P.matrix m) (e : Event) : Changes P e (m.update.leaves e)
  | sparseMatrix {m : SparseMatrix} (hP : P.sparseMatrix m) (e : Event) :
    Changes P e (m.update.leaves e)
  | merge {m : ConditionalMerge} (hP : P.merge m) (e : Event) : Changes P e (m.update.leaves e)
  | assignment (a : Assignment) (e : Event) : Changes P e (a.run.leaves e)
  | shredder {s : Shredder} (hP : P.shredder s) (e : Event) : Changes P e (s.update.leaves e)

section

variable {P : Parts} {e e' mid : Event} {line line' : List Event}

theorem Spans.chain_append (h : Spans line e mid) (h' : Spans line' mid e')
    (hc : line.IsChain (Changes P)) (hc' : line'.IsChain (Changes P)) :
    (line ++ line').IsChain (Changes P) := by
  refine List.isChain_append.2 ⟨hc, hc', fun s hs s' hs' => ?_⟩
  obtain rfl := Option.some.inj (h.2.symm.trans hs)
  obtain rfl := Option.some.inj (h'.1.symm.trans hs')
  exact .stays _

theorem changePasses_chain {label : Labeling} (h : Changes P e (label.leaves e)) :
    (changePasses label e).IsChain (Changes P) :=
  List.isChain_pair.2 h

theorem Assignment.passes_chain : ∀ (assignments : List Assignment) (e : Event),
    (passes assignments e).IsChain (Changes P)
  | [], e => .singleton e
  | a :: rest, e => by
    have hstep : Changes P e (a.run.leaves e) := .assignment a e
    simp only [passes]
    rcases hrun : a.run e with ⟨⟨⟩, s⟩ | ⟨err, s⟩
    · rw [Labeling.leaves_of_ok hrun] at hstep
      refine (passes_chain rest s).cons fun next hnext => ?_
      obtain rfl := Option.some.inj ((passes_spans rest s).1.symm.trans hnext)
      exact hstep
    · rw [Labeling.leaves_of_error hrun] at hstep
      exact List.isChain_pair.2 hstep

theorem descendPasses_chain {children : List Node} (selector : Selector)
    (hat : ∀ i e, (passesAt children i e).IsChain (Changes P)) (e : Event) :
    List.IsChain (Changes P) (match selector.select e with
      | .error _ => [e]
      | .ok i => passesAt children i e) := by
  rcases selector.select e with err | i
  · exact .singleton e
  · exact hat i e

mutual

/-- Without multiplicity a run makes one change after another. -/
theorem Node.passes_chain (hno : ∀ m, ¬ P.multiplicity m) :
    ∀ node : Node, node.All P → ∀ e, (node.passes e).IsChain (Changes P)
  | ⟨_, _, _, kind⟩, h, e => NodeKind.passes_chain hno kind h e

theorem NodeKind.passes_chain (hno : ∀ m, ¬ P.multiplicity m) :
    ∀ kind : NodeKind, kind.All P → ∀ e, (kind.passes e).IsChain (Changes P)
  | .branch children selector .none, h, e =>
    descendPasses_chain selector (passesAt_chain hno children h.2.1) e
  | .branch children selector (.updates us), h, e => by
    have hspans := updatePasses_spans us e
    have hus := updatePasses_chain hno us h.2.2 e
    simp only [NodeKind.passes, Labeling.leaves] at hspans ⊢
    rcases hu : updateAll us e with ⟨⟨⟩, mid⟩ | ⟨err, s⟩
    · rw [hu] at hspans
      exact hspans.chain_append (descendPasses_spans selector (passesAt_spans children) mid) hus
        (descendPasses_chain selector (passesAt_chain hno children h.2.1) mid)
    · exact hus
  | .branch _ _ (.multiplicity m), h, _ => (hno m h.2.2).elim
  | .population _, h, e => changePasses_chain (.leaf h e)
  | .stop, _, e => .singleton e

theorem passesAt_chain (hno : ∀ m, ¬ P.multiplicity m) :
    ∀ children : List Node, childrenAll P children →
      ∀ i e, (passesAt children i e).IsChain (Changes P)
  | [], _, _, e => .singleton e
  | node :: _, h, 0, e => Node.passes_chain hno node h.1 e
  | _ :: rest, h, i + 1, e => passesAt_chain hno rest h.2 i e

theorem updatePasses_chain (hno : ∀ m, ¬ P.multiplicity m) :
    ∀ us : List Update, updatesAll P us → ∀ e, (updatePasses us e).IsChain (Changes P)
  | [], _, e => .singleton e
  | u :: rest, h, e => by
    have hspans := Update.passes_spans u e
    have hhead := Update.passes_chain hno u h.1 e
    simp only [updatePasses, Labeling.leaves] at hspans ⊢
    rcases hu : u.apply e with ⟨⟨⟩, mid⟩ | ⟨err, s⟩
    · rw [hu] at hspans
      exact hspans.chain_append (updatePasses_spans rest mid) hhead
        (updatePasses_chain hno rest h.2 mid)
    · exact hhead

theorem Update.passes_chain (hno : ∀ m, ¬ P.multiplicity m) :
    ∀ u : Update, u.All P → ∀ e, (u.passes e).IsChain (Changes P)
  | .matrix _, h, e => changePasses_chain (.matrix h e)
  | .sparseMatrix _, h, e => changePasses_chain (.sparseMatrix h e)
  | .merge _, h, e => changePasses_chain (.merge h e)
  | .assignment a, _, e => by
    simp only [Update.passes, ConditionalAssignment.passes]
    split_ifs
    · exact Assignment.passes_chain a.assignments e
    · exact .singleton e
  | .shredder _, h, e => changePasses_chain (.shredder h e)
  | .tree root, h, e => Node.passes_chain hno root h e

end

end

/-- Activities stay as they are, unless there are none: then one may be added. -/
def LabelsOnce (before after : List Activity) : Prop :=
  after = before ∨ before = [] ∧ after.length = 1

namespace LabelsOnce

variable {before mid after : List Activity}

theorem refl (before : List Activity) : LabelsOnce before before := .inl rfl

theorem trans (h : LabelsOnce before mid) (h' : LabelsOnce mid after) :
    LabelsOnce before after := by
  rcases h with rfl | ⟨hbefore, hmid⟩
  · exact h'
  · rcases h' with rfl | ⟨rfl, -⟩
    · exact .inr ⟨hbefore, hmid⟩
    · cases hmid

theorem length_le (h : LabelsOnce before after) : after.length ≤ max 1 before.length := by
  rcases h with rfl | ⟨-, hafter⟩ <;> omega

theorem eq_of_pos (h : LabelsOnce before after) (hpos : 1 ≤ before.length) : after = before := by
  rcases h with heq | ⟨rfl, -⟩
  · exact heq
  · cases hpos

end LabelsOnce

/-- A single change labels an event only if it has no activities. -/
theorem Changes.labelsOnce {M : Multiplicity → Prop} {e e' : Event}
    (h : Changes (.quiet M) e e') : LabelsOnce (Event.activities e) (Event.activities e') := by
  cases h with
  | stays => exact .refl _
  | leaf =>
    rename_i leaf _
    rcases h : leaf.apply e with err | e'
    · rw [Labeling.leaves_of_error (change_eq_error_iff.2 ⟨h, rfl⟩)]
      exact .refl _
    · rw [Labeling.leaves_of_ok (change_eq_ok_iff.2 h)]
      obtain ⟨hempty, a, rfl⟩ := Population.apply_eq_ok h
      exact .inr ⟨hempty, rfl⟩
  | matrix hq => exact .inl (Matrix.activities_update hq e)
  | sparseMatrix hq => exact .inl (SparseMatrix.activities_update hq e)
  | merge hq => exact .inl (ConditionalMerge.activities_update hq e)
  | assignment a => exact .inl (a.activities_run e)
  | @shredder s => exact .inl (s.activities_update e)

/-- So do any number of changes one after another. -/
theorem labelsOnce_of_chain {M : Multiplicity → Prop} {e : Event} {line : List Event}
    (hhead : line.head? = some e) (hc : line.IsChain (Changes (.quiet M))) :
    ∀ s ∈ line, LabelsOnce (Event.activities e) (Event.activities s) := by
  induction line generalizing e with
  | nil => cases hhead
  | cons first rest ih =>
    obtain rfl := Option.some.inj hhead
    obtain ⟨hnext, hrest⟩ := List.isChain_cons.1 hc
    intro s hs
    rcases List.mem_cons.1 hs with rfl | hs
    · exact .refl _
    · obtain ⟨next, others, rfl⟩ := List.exists_cons_of_ne_nil (List.ne_nil_of_mem hs)
      exact (hnext next rfl).labelsOnce.trans (ih rfl hrest s hs)

namespace Node

/-- Without multiplicity an event is labeled at most once: on the whole way from it, change by
change, to what the run leaves, successful or not, it has no more activities than it had, or one if
it had none, and those it had stay. -/
theorem labels_once {node : Node} (h : node.All (.quiet fun _ => False)) (e : Event) :
    (node.passes e).head? = some e ∧
    (node.passes e).IsChain (Changes (.quiet fun _ => False)) ∧
    (node.passes e).getLast? = some (node.apply.leaves e) ∧
    ∀ s ∈ node.passes e,
      (Event.activities s).length ≤ max 1 (Event.activities e).length ∧
        (1 ≤ (Event.activities e).length → Event.activities s = Event.activities e) := by
  obtain ⟨hhead, hlast⟩ := node.passes_spans e
  have hchain := node.passes_chain (P := .quiet fun _ => False) (fun _ hm => hm) h e
  refine ⟨hhead, hchain, hlast, fun s hs => ?_⟩
  have honce := labelsOnce_of_chain hhead hchain s hs
  exact ⟨honce.length_le, honce.eq_of_pos⟩

/-- A tree that assigns a person in an update and again in its child. -/
def leafAfterLeaf : NodeSpec :=
  let leaf : NodeSpec := ⟨none, none, none, none, some ⟨[⟨0, 0⟩], none⟩, none⟩
  ⟨none, none, none,
    some ⟨[⟨some leaf, none, none, some ⟨.always, none, none, []⟩⟩], none,
      some [⟨none, none, none, none, none, some (some leaf)⟩], none⟩,
    none, none⟩

theorem labels_once_leafAfterLeaf :
    ∃ node err e', ofRoot leafAfterLeaf = .ok node ∧ node.All (.quiet fun _ => False) ∧
      node.apply .empty = .error err e' ∧ (Event.activities e').length = 1 ∧
      ∀ s ∈ node.passes .empty, (Event.activities s).length ≤ max 1 0 := by
  have hb : ∃ node err e', ofRoot leafAfterLeaf = .ok node ∧ node.All (.quiet fun _ => False) ∧
      node.apply .empty = .error err e' ∧ (Event.activities e').length = 1 :=
    ⟨_, _, _, rfl, ⟨trivial, ⟨trivial, trivial⟩, trivial, trivial⟩, rfl, rfl⟩
  obtain ⟨node, err, e', hb, hall, h, hlen⟩ := hb
  obtain ⟨-, -, -, hpasses⟩ := labels_once hall .empty
  exact ⟨node, err, e', hb, hall, h, hlen, fun s hs => (hpasses s hs).1⟩

end Node

end VirtualPeople
