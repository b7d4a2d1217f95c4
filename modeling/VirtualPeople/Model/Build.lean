import VirtualPeople.Model.Arena

/-!
# Building models

A tree is built from its root. A list is built from its root too: the one node without index, which
has to come last, or else the one node that no other refers to; and then every listed node has to
be attached.
-/

namespace VirtualPeople

mutual

/-- The indexes that a node refers to, at any depth and in trees of updates. -/
def NodeSpec.references : NodeSpec → List UInt32
  | ⟨_, _, _, none, _, _⟩ => []
  | ⟨_, _, _, some b, _, _⟩ => b.references

def BranchSpec.references : BranchSpec → List UInt32
  | ⟨edges, _, none, _⟩ => edgesReferences edges
  | ⟨edges, _, some updates, _⟩ => edgesReferences edges ++ updatesReferences updates

def edgesReferences : List EdgeSpec → List UInt32
  | [] => []
  | e :: rest => e.references ++ edgesReferences rest

def EdgeSpec.references : EdgeSpec → List UInt32
  | ⟨none, index, _, _⟩ => index.toList
  | ⟨some child, index, _, _⟩ => index.toList ++ child.references

def updatesReferences : List UpdateSpec → List UInt32
  | [] => []
  | u :: rest => u.references ++ updatesReferences rest

def UpdateSpec.references : UpdateSpec → List UInt32
  | ⟨_, _, _, _, _, some (some root)⟩ => root.references
  | _ => []

end

namespace Arena

/-- The indexes of the pending nodes, the smallest first. -/
def indexes (a : Arena) : List UInt32 := (a.pending.map (·.1)).mergeSort fun i j => i ≤ j

/-- The one pending node that no pending node refers to. -/
def rootIndex (a : Arena) : Except Error UInt32 :=
  let referenced := a.pending.flatMap fun (_, node) => node.references
  match a.indexes.filter fun i => !referenced.contains i with
  | [] => invalidModel .noRoot
  | [index] => return index
  | roots => invalidModel (.severalRoots roots)

/-- The arena of listed nodes and the node without index, if there is one. -/
def ofNodes (a : Arena) : List NodeSpec → Except Error (Arena × Option NodeSpec)
  | [] => return (a, none)
  | node :: rest =>
    match node.index with
    | some _ =>
      match insert node a with
      | .ok () a => ofNodes a rest
      | .error err _ => .error err
    | none => if rest.isEmpty then return (a, some node) else invalidModel .nodeAfterRoot

end Arena

namespace Node

/-- The node that an arena makes of a root, if the arena is used up. -/
def exhausting (build : Build Node) (a : Arena) : Except Error Node :=
  match build a with
  | .error err _ => .error err
  | .ok node a => if a.pending.isEmpty then return node else invalidModel (.unattached a.indexes)

/-- Builds a tree whose nodes are all held by their parents. -/
def ofRoot (root : NodeSpec) : Except Error Node :=
  match Arena.build root .empty with
  | .ok node _ => return node
  | .error err _ => .error err

/-- Builds a tree from a list of nodes. -/
def ofNodes (nodes : List NodeSpec) : Except Error Node := do
  let (arena, root) ← Arena.ofNodes .empty nodes
  match root with
  | some root => exhausting (Arena.build root) arena
  | none =>
    let index ← arena.rootIndex
    exhausting (Arena.resolve index) arena

/-- Builds a model in whichever form it is written. -/
def ofModel (m : ModelSpec) : Except Error Node := do
  m.validate
  match m.root with
  | some root => ofRoot root
  | none => ofNodes m.nodes

end Node

end VirtualPeople
