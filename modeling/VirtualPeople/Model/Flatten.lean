import VirtualPeople.Model.Spec

/-!
# Flattening a model

A tree becomes a list in which children come before their parents and the root comes last. The
index of a node is its place in the list, and every branch refers to its child by index. Trees of
updates stay where they are.
-/

namespace VirtualPeople

mutual

/-- Puts a node behind the nodes it holds, onto the nodes of the list so far, last first. -/
def NodeSpec.flattenOnto (done : List NodeSpec) : NodeSpec → Except Error (List NodeSpec × UInt32)
  | ⟨name, _, debugInfo, none, population, stop⟩ =>
    numbered done fun index => ⟨name, some index, debugInfo, none, population, stop⟩
  | ⟨name, _, debugInfo, some b, population, stop⟩ => do
    let (done, b) ← b.flattenOnto done
    numbered done fun index => ⟨name, some index, debugInfo, some b, population, stop⟩
where
  numbered (done : List NodeSpec) (node : UInt32 → NodeSpec) :
      Except Error (List NodeSpec × UInt32) :=
    if done.length < UInt32.size then
      let index := UInt32.ofNat done.length
      return (node index :: done, index)
    else invalidModel .tooManyNodes

def BranchSpec.flattenOnto (done : List NodeSpec) :
    BranchSpec → Except Error (List NodeSpec × BranchSpec)
  | ⟨edges, seed, updates, multiplicity⟩ => do
    let (done, edges) ← flattenEdges done edges
    return (done, ⟨edges, seed, updates, multiplicity⟩)

def flattenEdges (done : List NodeSpec) :
    List EdgeSpec → Except Error (List NodeSpec × List EdgeSpec)
  | [] => return (done, [])
  | e :: rest => do
    let (done, e) ← e.flattenOnto done
    let (done, rest) ← flattenEdges done rest
    return (done, e :: rest)

def EdgeSpec.flattenOnto (done : List NodeSpec) :
    EdgeSpec → Except Error (List NodeSpec × EdgeSpec)
  | ⟨_, some _, _, _⟩ => invalidModel .indexInTree
  | ⟨none, none, _, _⟩ => invalidModel .childUnset
  | ⟨some child, none, chance, condition⟩ => do
    let (done, index) ← child.flattenOnto done
    return (done, ⟨none, some index, chance, condition⟩)

end

/-- The list of the nodes of a tree. -/
def NodeSpec.flatten (root : NodeSpec) : Except Error (List NodeSpec) := do
  let (nodes, _) ← root.flattenOnto []
  return nodes.reverse

end VirtualPeople
