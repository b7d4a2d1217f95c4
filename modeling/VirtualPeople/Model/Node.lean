import VirtualPeople.Multiplicity
import VirtualPeople.Population
import VirtualPeople.Update.ConditionalAssignment
import VirtualPeople.Update.ConditionalMerge
import VirtualPeople.Update.Matrix
import VirtualPeople.Update.Shredder

/-!
# Nodes

An event goes down a tree of nodes. A branching node first updates the event, or splits it into
copies, then selects a child by chance or by condition, for every copy anew. A leaf assigns a
person, a stop nobody. A failure stops everything; what was done to the event before it stays.
-/

namespace VirtualPeople

/-- Selects the child of a branching node. -/
inductive Selector
  | chance (distribution : Distribution) (seed : String)
  | condition (filters : List (Filter Schema.event.fields))

/-- The place of the child that an event goes to. -/
def Selector.select (s : Selector) (e : Event) : Except Error Nat :=
  match s with
  | .chance distribution seed =>
    return distribution.pick (seed ++ (Value.uint64 e.fingerprint).text)
  | .condition filters =>
    match firstMatch filters e with
    | some i => return i
    | none => invalidEvent .noConditionMatches

mutual

/-- A node of a model. -/
structure Node where
  name : String
  index : Option UInt32
  fromBuilder : Bool
  kind : NodeKind

inductive NodeKind
  | branch (children : List Node) (selector : Selector) (action : Action)
  | population (leaf : Population)
  | stop

/-- What a branching node does before it selects a child. -/
inductive Action
  | none
  | updates (updates : List Update)
  | multiplicity (multiplicity : Multiplicity)

/-- A change to an event; a tree changes it by labeling it. -/
inductive Update
  | matrix (matrix : Matrix)
  | sparseMatrix (matrix : SparseMatrix)
  | merge (merge : ConditionalMerge)
  | assignment (assignment : ConditionalAssignment)
  | shredder (shredder : Shredder)
  | tree (root : Node)

end

namespace Multiplicity

/-- The copy of an event with a number. -/
def clone (m : Multiplicity) (e : Event) (index : Nat) : Except Error Event :=
  m.setPersonIndex index (e.withFingerprint (m.cloneFingerprint e.fingerprint index))

/-- The activities of the copies of an event from a number on, each labeled by itself, added to
those of the event. -/
def labelClones (m : Multiplicity) (label : Labeling) (template : Event) :
    (copies : Nat) → (index : Nat) → Labeling
  | 0, _, e => .ok () e
  | copies + 1, index, e =>
    match m.clone template index with
    | .error err => .error err e
    | .ok copy =>
      match label copy with
      | .error err _ => .error err e
      | .ok () copy =>
        labelClones m label template copies (index + 1)
          (e.withActivities (e.activities ++ copy.activities))

/-- Labels an event as many times as it counts; a single copy is the event itself. -/
def expand (m : Multiplicity) (label : Labeling) : Labeling := fun e =>
  match m.count e with
  | .error err => .error err e
  | .ok 1 =>
    match m.setPersonIndex 0 e with
    | .error err => .error err e
    | .ok e => label e
  | .ok copies => labelClones m label e copies 0 e

end Multiplicity

mutual

/-- Labels an event. -/
def Node.apply : Node → Labeling
  | ⟨_, _, _, kind⟩ => kind.apply

def NodeKind.apply : NodeKind → Labeling
  | .branch children selector action => fun e =>
    let descend : Labeling := fun e =>
      match selector.select e with
      | .error err => .error err e
      | .ok i => applyAt children i e
    match action with
    | .none => descend e
    | .updates us =>
      match updateAll us e with
      | .ok () e => descend e
      | .error err e => .error err e
    | .multiplicity m => m.expand descend e
  | .population leaf => Labeling.change leaf.apply
  | .stop => fun e => .ok () e

/-- Labels an event by the node at a place. -/
def applyAt : List Node → Nat → Labeling
  | [], _ => fun e => .error (.internal .choiceRange) e
  | node :: _, 0 => node.apply
  | _ :: rest, i + 1 => applyAt rest i

/-- Runs updates in order. -/
def updateAll : List Update → Labeling
  | [] => fun e => .ok () e
  | u :: rest => fun e =>
    match u.apply e with
    | .ok () e => updateAll rest e
    | .error err e => .error err e

def Update.apply : Update → Labeling
  | .matrix m => m.update
  | .sparseMatrix m => m.update
  | .merge m => m.update
  | .assignment a => a.update
  | .shredder s => s.update
  | .tree root => root.apply

end

end VirtualPeople
