import VirtualPeople.Multiplicity
import VirtualPeople.Population
import VirtualPeople.Update.ConditionalAssignment
import VirtualPeople.Update.ConditionalMerge
import VirtualPeople.Update.Matrix
import VirtualPeople.Update.Shredder

/-!
# Models as they are written

A model is a tree of nodes or a list of them. A node branches, assigns a person, or stops; its
branches hold their children or refer to them by index, and an update may hold a tree of its own.
What is written may be incomplete or contradictory, which is found out when it is built.
-/

namespace VirtualPeople

/-- What a node says of its origin: whether a model builder's configuration names it. -/
structure DebugInfo where
  fromBuilder : Option Bool

mutual

/-- The written form of a node; just one of its kinds may be set. -/
structure NodeSpec where
  name : Option String
  index : Option UInt32
  debugInfo : Option DebugInfo
  branch : Option BranchSpec
  population : Option PopulationSpec
  stop : Option Unit

/-- The written form of what a branching node does. -/
structure BranchSpec where
  edges : List EdgeSpec
  seed : Option String
  updates : Option (List UpdateSpec)
  multiplicity : Option MultiplicitySpec

/-- The written form of a branch; it holds or names its child, and has a chance or a condition. -/
structure EdgeSpec where
  child : Option NodeSpec
  childIndex : Option UInt32
  chance : Option Float32
  condition : Option FilterSpec

/-- The written form of an update; just one of its kinds may be set. A tree may lack its root. -/
structure UpdateSpec where
  matrix : Option MatrixSpec
  sparseMatrix : Option SparseMatrixSpec
  merge : Option ConditionalMergeSpec
  assignment : Option ConditionalAssignmentSpec
  shredder : Option ShredderSpec
  tree : Option (Option NodeSpec)

end

/-- The written form of a model: a root that holds all others, or a list of nodes. -/
structure ModelSpec where
  root : Option NodeSpec
  nodes : List NodeSpec

namespace NodeSpec

/-- A node with nothing set. -/
def empty : NodeSpec := ⟨none, none, none, none, none, none⟩

/-- How a message refers to a node. -/
def displayName (n : NodeSpec) : String :=
  match n.name, n.index with
  | some name, some index => s!"{name} (index {index.toNat})"
  | some name, none => name
  | none, some index => s!"index {index.toNat}"
  | none, none => "<unnamed>"

end NodeSpec

mutual

/-- How many nodes a node holds, itself included, in branches and in trees of updates. -/
def NodeSpec.size : NodeSpec → Nat
  | ⟨_, _, _, none, _, _⟩ => 1
  | ⟨_, _, _, some b, _, _⟩ => 1 + b.size

def BranchSpec.size : BranchSpec → Nat
  | ⟨edges, _, none, _⟩ => edgesSize edges
  | ⟨edges, _, some updates, _⟩ => edgesSize edges + updatesSize updates

def edgesSize : List EdgeSpec → Nat
  | [] => 0
  | e :: rest => e.size + edgesSize rest

def EdgeSpec.size : EdgeSpec → Nat
  | ⟨none, _, _, _⟩ => 0
  | ⟨some child, _, _, _⟩ => child.size

def updatesSize : List UpdateSpec → Nat
  | [] => 0
  | u :: rest => u.size + updatesSize rest

def UpdateSpec.size : UpdateSpec → Nat
  | ⟨_, _, _, _, _, some (some root)⟩ => root.size
  | _ => 0

end

namespace ModelSpec

/-- A model is a root or a list, and not empty. -/
def validate (m : ModelSpec) : Except Error Unit :=
  match m.root, m.nodes with
  | some _, _ :: _ => invalidModel .rootAndNodes
  | none, [] => invalidModel .noNode
  | _, _ => return ()

def nodeCount (m : ModelSpec) : Nat :=
  (m.root.toList ++ m.nodes).foldr (fun node count => node.size + count) 0

end ModelSpec

end VirtualPeople
