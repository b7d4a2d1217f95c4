import VirtualPeople.Model.Node
import VirtualPeople.Model.Spec

/-!
# Building nodes

An arena holds the listed nodes that are still to be attached. Building a node builds the nodes it
holds and takes those it refers to out of the arena, so that each listed node is attached at most
once, and a node that refers to one being built closes a cycle. The nodes taken out on the way
down are all different, which is why building ends.
-/

namespace VirtualPeople

/-- Nodes to be attached, by index, and the indexes of those being built. -/
structure Arena where
  pending : List (UInt32 × NodeSpec)
  building : List UInt32

/-- Builds from an arena; a failure keeps the state it reached. -/
abbrev Build (α : Type) := EStateM Error Arena α

namespace Build

/-- A part that needs no arena. -/
def of {α : Type} (result : Except Error α) : Build α := fun a =>
  match result with
  | .ok v => .ok v a
  | .error err => .error err a

def fail {α : Type} (fault : ModelFault) : Build α := of (invalidModel fault)

end Build

inductive NodeSort
  | branch
  | population
  | stop
deriving DecidableEq, Repr

inductive UpdateSort
  | matrix
  | sparseMatrix
  | merge
  | assignment
  | shredder
  | tree
deriving DecidableEq, Repr

/-- The sort of a node, of which just one has to be set. -/
def NodeSpec.sort (n : NodeSpec) : Except Error NodeSort :=
  match n.branch, n.population, n.stop with
  | some _, none, none => return .branch
  | none, some _, none => return .population
  | none, none, some _ => return .stop
  | none, none, none => invalidModel (.nodeKindUnset n.displayName)
  | _, _, _ => invalidModel (.nodeKindTwice n.displayName)

/-- The sorts of an update that are set. -/
def UpdateSpec.sorts (u : UpdateSpec) : List UpdateSort :=
  (if u.matrix.isSome then [.matrix] else []) ++
    (if u.sparseMatrix.isSome then [.sparseMatrix] else []) ++
    (if u.merge.isSome then [.merge] else []) ++
    (if u.assignment.isSome then [.assignment] else []) ++
    (if u.shredder.isSome then [.shredder] else []) ++
    (if u.tree.isSome then [.tree] else [])

/-- The sort of an update, of which just one has to be set. -/
def UpdateSpec.sort (u : UpdateSpec) : Except Error UpdateSort :=
  match u.sorts with
  | [] => invalidModel .updateUnset
  | [sort] => return sort
  | _ => invalidModel .updateTwice

/-- How a branch is selected. -/
inductive SelectorSpec
  | chance (chance : Float32)
  | condition (condition : FilterSpec)

/-- How a branch is selected, by a chance or by a condition. -/
def EdgeSpec.selector (e : EdgeSpec) : Except Error SelectorSpec :=
  match e.chance, e.condition with
  | some chance, none => return .chance chance
  | none, some condition => return .condition condition
  | _, _ => invalidModel .branchSelector

namespace SelectorSpec

def asChance : SelectorSpec → Except Error Float
  | chance c => return widen c
  | condition _ => invalidModel .mixedSelectors

def asCondition : SelectorSpec → Except Error (Filter Schema.event.fields)
  | condition c => c.build Schema.event
  | chance _ => invalidModel .mixedSelectors

end SelectorSpec

/-- The selector of a branching node; its first branch decides whether all go by chance. -/
def BranchSpec.selector (edges : List EdgeSpec) (seed : Option String) : Except Error Selector := do
  let selectors ← edges.mapM EdgeSpec.selector
  match selectors with
  | .condition _ :: _ => return .condition (← selectors.mapM SelectorSpec.asCondition)
  | _ =>
    let chances ← selectors.mapM SelectorSpec.asChance
    return .chance (← Distribution.ofWeights chances) (seed.getD "")

mutual

/-- Builds a node; `resolve` builds the node of an index. -/
def NodeSpec.build (resolve : UInt32 → Build Node) : NodeSpec → Build Node
  | ⟨name, index, debugInfo, branch, population, stop⟩ => do
    let node : NodeKind → Node :=
      .mk (name.getD "") index ((debugInfo.bind (·.fromBuilder)).getD false)
    let _ ← Build.of (NodeSpec.sort ⟨name, index, debugInfo, branch, population, stop⟩)
    match branch, population with
    | some b, _ => return node (← b.build resolve)
    | none, some p => return node (.population (← Build.of p.build))
    | none, none => return node .stop

def BranchSpec.build (resolve : UInt32 → Build Node) : BranchSpec → Build NodeKind
  | ⟨edges, seed, updates, multiplicity⟩ => do
    if edges.isEmpty then Build.fail .noBranch
    else
      let children ← buildChildren resolve edges
      let selector ← Build.of (BranchSpec.selector edges seed)
      match updates, multiplicity with
      | some _, some _ => Build.fail .updatesAndMultiplicity
      | some us, none => return .branch children selector (.updates (← buildUpdates resolve us))
      | none, some m => return .branch children selector (.multiplicity (← Build.of m.build))
      | none, none => return .branch children selector .none

def buildChildren (resolve : UInt32 → Build Node) : List EdgeSpec → Build (List Node)
  | [] => return []
  | e :: rest => do
    let child ← e.buildChild resolve
    return child :: (← buildChildren resolve rest)

/-- The child that a branch holds, or the one it refers to. -/
def EdgeSpec.buildChild (resolve : UInt32 → Build Node) : EdgeSpec → Build Node
  | ⟨none, some index, _, _⟩ => resolve index
  | ⟨some child, none, _, _⟩ => child.build resolve
  | _ => Build.fail .branchChild

def buildUpdates (resolve : UInt32 → Build Node) : List UpdateSpec → Build (List Update)
  | [] => return []
  | u :: rest => do
    let update ← u.build resolve
    return update :: (← buildUpdates resolve rest)

def UpdateSpec.build (resolve : UInt32 → Build Node) : UpdateSpec → Build Update
  | ⟨matrix, sparseMatrix, merge, assignment, shredder, tree⟩ => do
    let _ ← Build.of
      (UpdateSpec.sort ⟨matrix, sparseMatrix, merge, assignment, shredder, tree⟩)
    match matrix, sparseMatrix, merge, assignment, shredder, tree with
    | some m, _, _, _, _, _ => return .matrix (← Build.of m.build)
    | none, some m, _, _, _, _ => return .sparseMatrix (← Build.of m.build)
    | none, none, some m, _, _, _ => return .merge (← Build.of m.build)
    | none, none, none, some a, _, _ => return .assignment (← Build.of a.build)
    | none, none, none, none, some s, _ => return .shredder (← Build.of s.build)
    | none, none, none, none, none, some (some root) => return .tree (← root.build resolve)
    | none, none, none, none, none, _ => Build.fail .treeWithoutRoot

end

namespace Arena

def empty : Arena := ⟨[], []⟩

/-- Adds a node under its index; a node that has the index already gives way, which is a fault. -/
def insert (node : NodeSpec) : Build Unit := fun a =>
  match node.index with
  | none => .error (.invalidModel (.indexUnset node.displayName)) a
  | some index =>
    let grown : Arena := ⟨(index, node) :: a.pending.filter (·.1 ≠ index), a.building⟩
    if a.pending.any (·.1 == index) then .error (.invalidModel (.indexTwice index)) grown
    else .ok () grown

/-- Takes the node of an index out of an arena, to be built. -/
def take (index : UInt32) : Build NodeSpec := fun a =>
  if a.building.contains index then .error (.invalidModel (.cycle index)) a
  else
    match a.pending.lookup index with
    | none => .error (.invalidModel (.nodeMissing index)) a
    | some node => .ok node ⟨a.pending.filter (·.1 ≠ index), index :: a.building⟩

/-- The node of an index is no longer being built. -/
def done (index : UInt32) (a : Arena) : Arena := ⟨a.pending, a.building.erase index⟩

/-- Builds the node of an index, where at most `bound` nodes are pending. -/
def resolveTo : (bound : Nat) → UInt32 → Build Node
  | 0, index => fun a =>
    match take index a with
    | .ok _ a => .error (.invalidModel (.nodeMissing index)) a
    | .error err a => .error err a
  | bound + 1, index => fun a =>
    match take index a with
    | .error err a => .error err a
    | .ok node a =>
      match node.build (resolveTo bound) a with
      | .ok built a => .ok built (a.done index)
      | .error err a => .error err (a.done index)

/-- Builds the node of an index. -/
def resolve (index : UInt32) : Build Node := fun a => resolveTo a.pending.length index a

/-- Builds a node that is in no arena. -/
def build (node : NodeSpec) : Build Node := fun a =>
  node.build (resolveTo a.pending.length) a

/-- Builds an update. -/
def buildUpdate (update : UpdateSpec) : Build Update := fun a =>
  update.build (resolveTo a.pending.length) a

end Arena

end VirtualPeople
