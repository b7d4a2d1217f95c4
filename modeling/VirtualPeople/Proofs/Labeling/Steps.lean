import VirtualPeople.Model.Node

/-!
# The steps of a run

`Node.steps` lists what a run of `Node.apply` does to the activities of events, in order: a leaf
assigns a person, or an event is split into copies that are labeled each by itself. `Records` lists
the activities that the leaves of a run add, one for each.
-/

namespace VirtualPeople

inductive Step
  | assign (leaf : Population) (event : Event)
  | split (copies : Nat) (event : Event)

namespace Multiplicity

variable (m : Multiplicity) (label : Labeling) (steps : Event → List Step)

/-- The steps of the copies of an event from a number on. -/
def cloneSteps (template : Event) : (copies : Nat) → (index : Nat) → List Step
  | 0, _ => []
  | copies + 1, index =>
    match m.clone template index with
    | .error _ => []
    | .ok copy =>
      match label copy with
      | .error _ _ => steps copy
      | .ok () _ => steps copy ++ cloneSteps template copies (index + 1)

/-- The steps of labeling an event as many times as it counts; a single copy is no split. -/
def expandSteps (e : Event) : List Step :=
  match m.count e with
  | .error _ => []
  | .ok 1 =>
    match m.setPersonIndex 0 e with
    | .error _ => []
    | .ok e => steps e
  | .ok copies => .split copies e :: m.cloneSteps label steps e copies 0

end Multiplicity

/-- Labels an event by the child that is selected for it. -/
def descend (children : List Node) (selector : Selector) : Labeling := fun e =>
  match selector.select e with
  | .error err => .error err e
  | .ok i => applyAt children i e

mutual

/-- The steps of labeling an event. -/
def Node.steps : Node → Event → List Step
  | ⟨_, _, _, kind⟩ => kind.steps

def NodeKind.steps : NodeKind → Event → List Step
  | .branch children selector action => fun e =>
    let descendSteps (e : Event) : List Step :=
      match selector.select e with
      | .error _ => []
      | .ok i => stepsAt children i e
    match action with
    | .none => descendSteps e
    | .updates us =>
      match updateAll us e with
      | .ok () e' => updateSteps us e ++ descendSteps e'
      | .error _ _ => updateSteps us e
    | .multiplicity m => m.expandSteps (descend children selector) descendSteps e
  | .population leaf => fun e => [.assign leaf e]
  | .stop => fun _ => []

def stepsAt : List Node → Nat → Event → List Step
  | [], _ => fun _ => []
  | node :: _, 0 => node.steps
  | _ :: rest, i + 1 => stepsAt rest i

def updateSteps : List Update → Event → List Step
  | [] => fun _ => []
  | u :: rest => fun e =>
    match u.apply e with
    | .ok () e' => u.steps e ++ updateSteps rest e'
    | .error _ _ => u.steps e

def Update.steps : Update → Event → List Step
  | .tree root => root.steps
  | .matrix _ => fun _ => []
  | .sparseMatrix _ => fun _ => []
  | .merge _ => fun _ => []
  | .assignment _ => fun _ => []
  | .shredder _ => fun _ => []

end

/-- The activities that the leaves of a run add, one for each leaf that runs, in order. -/
inductive Records : List Step → List Activity → Prop
  | nil : Records [] []
  | assign {leaf : Population} {e : Event} {a : Activity} {steps : List Step}
      {added : List Activity} (h : leaf.apply e = .ok (e.withActivities [a])) :
      Records steps added → Records (.assign leaf e :: steps) (a :: added)
  | split {copies : Nat} {e : Event} {steps : List Step} {added : List Activity} :
      Records steps added → Records (.split copies e :: steps) added

theorem Records.append {steps steps' : List Step} {added added' : List Activity}
    (h : Records steps added) (h' : Records steps' added') :
    Records (steps ++ steps') (added ++ added') := by
  induction h with
  | nil => exact h'
  | assign ha _ ih => exact ih.assign ha
  | split _ ih => exact ih.split

theorem Records.length_le {steps : List Step} {added : List Activity} (h : Records steps added) :
    added.length ≤ steps.length := by
  induction h with
  | nil => exact Nat.le_refl 0
  | assign _ _ ih => exact Nat.succ_le_succ ih
  | split _ ih => exact Nat.le_succ_of_le ih

theorem Records.unique {steps : List Step} {added others : List Activity}
    (h : Records steps added) (h' : Records steps others) : added = others := by
  induction h generalizing others with
  | nil =>
    cases h'
    rfl
  | @assign leaf e a _ _ ha _ ih =>
    cases h' with
    | @assign _ _ b _ _ hb h' =>
      rw [ha, Except.ok.injEq] at hb
      have hab : [a] = [b] := congrArg Event.activities hb
      rw [List.head_eq_of_cons_eq hab, ih h']
  | split _ ih =>
    cases h' with
    | split h' => exact ih h'

/-- No step splits an event that has activities into several copies. -/
def SplitsFresh (steps : List Step) : Prop :=
  ∀ copies e, Step.split copies e ∈ steps → 2 ≤ copies → Event.activities e = []

theorem splitsFresh_append {steps steps' : List Step} :
    SplitsFresh (steps ++ steps') ↔ SplitsFresh steps ∧ SplitsFresh steps' := by
  unfold SplitsFresh
  simp only [List.mem_append]
  constructor
  · intro h
    exact ⟨fun copies e hm => h copies e (.inl hm), fun copies e hm => h copies e (.inr hm)⟩
  · rintro ⟨h, h'⟩ copies e (hm | hm)
    · exact h copies e hm
    · exact h' copies e hm

theorem splitsFresh_split {copies : Nat} {e : Event} {steps : List Step} :
    SplitsFresh (.split copies e :: steps) ↔
      (2 ≤ copies → Event.activities e = []) ∧ SplitsFresh steps := by
  unfold SplitsFresh
  constructor
  · intro h
    refine ⟨h copies e List.mem_cons_self, fun copies' e' hm => h copies' e' ?_⟩
    exact List.mem_cons_of_mem _ hm
  · rintro ⟨h, h'⟩ copies' e' hm
    rcases List.mem_cons.1 hm with heq | hm
    · cases heq
      exact h
    · exact h' copies' e' hm

end VirtualPeople
