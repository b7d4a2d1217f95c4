import VirtualPeople.Proofs.Model.Building
import VirtualPeople.Proofs.Model.Faults
import Mathlib.Data.List.Basic

/-!
# What building asks for

Building a node is a dialogue: it asks for the node of an index, goes on with the answer, and
settles in the end. The dialogue of a node does not depend on who answers
(`NodeSpec.build_eq_run`).
-/

namespace VirtualPeople

/-- The nodes that are asked for, one after the other, and what comes of them. -/
inductive Asks (α : Type)
  | settled (result : Except Error α)
  | ask (index : UInt32) (next : Node → Asks α)

namespace Asks

variable {α β : Type}

protected def bind : Asks α → (α → Asks β) → Asks β
  | settled (.ok v), f => f v
  | settled (.error err), _ => settled (.error err)
  | ask index next, f => ask index fun node => (next node).bind f

instance : Monad Asks where
  pure v := settled (.ok v)
  bind := Asks.bind

def fail (fault : ModelFault) : Asks α := settled (invalidModel fault)

/-- The dialogue with one who answers. -/
def run (resolve : UInt32 → Build Node) : Asks α → Build α
  | settled result => .of result
  | ask index next => resolve index >>= fun node => (next node).run resolve

variable {resolve : UInt32 → Build Node}

theorem run_pure (v : α) : (pure v : Asks α).run resolve = pure v := rfl

theorem run_settled (r : Except Error α) : (settled r).run resolve = .of r := rfl

theorem run_fail (fault : ModelFault) : (fail fault : Asks α).run resolve = .fail fault := rfl

theorem run_bind (f : α → Asks β) : ∀ p : Asks α,
    (p >>= f).run resolve = p.run resolve >>= fun v => (f v).run resolve
  | settled (.ok v) => rfl
  | settled (.error err) => rfl
  | ask index next => by
    have hnext (node : Node) := run_bind f (next node)
    change (resolve index >>= fun node => (next node >>= f).run resolve) =
      (resolve index >>= fun node => (next node).run resolve) >>= fun v => (f v).run resolve
    simp only [hnext, bind_assoc]

end Asks

mutual

/-- The dialogue that builds a node. -/
def NodeSpec.asking : NodeSpec → Asks Node
  | ⟨name, index, debugInfo, branch, population, stop⟩ => do
    let node : NodeKind → Node :=
      .mk (name.getD "") index ((debugInfo.bind (·.fromBuilder)).getD false)
    let _ ← Asks.settled (NodeSpec.sort ⟨name, index, debugInfo, branch, population, stop⟩)
    match branch, population with
    | some b, _ => return node (← b.asking)
    | none, some p => return node (.population (← Asks.settled p.build))
    | none, none => return node .stop

def BranchSpec.asking : BranchSpec → Asks NodeKind
  | ⟨edges, seed, updates, multiplicity⟩ => do
    if edges.isEmpty then Asks.fail .noBranch
    else
      let children ← askingChildren edges
      let selector ← Asks.settled (BranchSpec.selector edges seed)
      match updates, multiplicity with
      | some _, some _ => Asks.fail .updatesAndMultiplicity
      | some us, none => return .branch children selector (.updates (← askingUpdates us))
      | none, some m => return .branch children selector (.multiplicity (← Asks.settled m.build))
      | none, none => return .branch children selector .none

def askingChildren : List EdgeSpec → Asks (List Node)
  | [] => return []
  | e :: rest => do
    let child ← e.asking
    return child :: (← askingChildren rest)

def EdgeSpec.asking : EdgeSpec → Asks Node
  | ⟨none, some index, _, _⟩ => .ask index pure
  | ⟨some child, none, _, _⟩ => child.asking
  | _ => Asks.fail .branchChild

def askingUpdates : List UpdateSpec → Asks (List Update)
  | [] => return []
  | u :: rest => do
    let update ← u.asking
    return update :: (← askingUpdates rest)

def UpdateSpec.asking : UpdateSpec → Asks Update
  | ⟨matrix, sparseMatrix, merge, assignment, shredder, tree⟩ => do
    let _ ← Asks.settled
      (UpdateSpec.sort ⟨matrix, sparseMatrix, merge, assignment, shredder, tree⟩)
    match matrix, sparseMatrix, merge, assignment, shredder, tree with
    | some m, _, _, _, _, _ => return .matrix (← Asks.settled m.build)
    | none, some m, _, _, _, _ => return .sparseMatrix (← Asks.settled m.build)
    | none, none, some m, _, _, _ => return .merge (← Asks.settled m.build)
    | none, none, none, some a, _, _ => return .assignment (← Asks.settled a.build)
    | none, none, none, none, some s, _ => return .shredder (← Asks.settled s.build)
    | none, none, none, none, none, some (some root) => return .tree (← root.asking)
    | none, none, none, none, none, _ => Asks.fail .treeWithoutRoot

end

section

variable (resolve : UInt32 → Build Node)

open Asks (run_bind run_fail run_settled run_pure)

mutual

/-- A node is built by its dialogue. -/
theorem NodeSpec.build_eq_run : ∀ n : NodeSpec, n.build resolve = n.asking.run resolve
  | ⟨name, index, debugInfo, none, none, stop⟩ => by
    simp only [NodeSpec.build, NodeSpec.asking, run_bind, run_settled, run_pure]
  | ⟨name, index, debugInfo, none, some p, stop⟩ => by
    simp only [NodeSpec.build, NodeSpec.asking, run_bind, run_settled, run_pure]
  | ⟨name, index, debugInfo, some b, population, stop⟩ => by
    simp only [NodeSpec.build, NodeSpec.asking, run_bind, run_settled, run_pure,
      BranchSpec.build_eq_run b]

theorem BranchSpec.build_eq_run : ∀ b : BranchSpec, b.build resolve = b.asking.run resolve
  | ⟨[], seed, updates, multiplicity⟩ => by
    rcases updates with _ | us <;> rcases multiplicity with _ | m <;> rfl
  | ⟨e :: es, seed, none, none⟩ => by
    simp only [BranchSpec.build, BranchSpec.asking, List.isEmpty_cons, Bool.false_eq_true, if_false,
      run_bind, run_settled, run_pure, buildChildren_eq_run (e :: es)]
  | ⟨e :: es, seed, none, some m⟩ => by
    simp only [BranchSpec.build, BranchSpec.asking, List.isEmpty_cons, Bool.false_eq_true, if_false,
      run_bind, run_settled, run_pure, buildChildren_eq_run (e :: es)]
  | ⟨e :: es, seed, some us, none⟩ => by
    simp only [BranchSpec.build, BranchSpec.asking, List.isEmpty_cons, Bool.false_eq_true, if_false,
      run_bind, run_settled, run_pure, buildChildren_eq_run (e :: es), buildUpdates_eq_run us]
  | ⟨e :: es, seed, some us, some m⟩ => by
    simp only [BranchSpec.build, BranchSpec.asking, List.isEmpty_cons, Bool.false_eq_true, if_false,
      run_bind, run_settled, run_fail, buildChildren_eq_run (e :: es)]

theorem buildChildren_eq_run : ∀ es : List EdgeSpec,
    buildChildren resolve es = (askingChildren es).run resolve
  | [] => rfl
  | e :: es => by
    simp only [buildChildren, askingChildren, run_bind, run_pure, EdgeSpec.build_eq_run e,
      buildChildren_eq_run es]

theorem EdgeSpec.build_eq_run : ∀ e : EdgeSpec, e.buildChild resolve = e.asking.run resolve
  | ⟨none, some i, _, _⟩ => (bind_pure (resolve i)).symm
  | ⟨some n, none, _, _⟩ => NodeSpec.build_eq_run n
  | ⟨none, none, _, _⟩ => rfl
  | ⟨some _, some _, _, _⟩ => rfl

theorem buildUpdates_eq_run : ∀ us : List UpdateSpec,
    buildUpdates resolve us = (askingUpdates us).run resolve
  | [] => rfl
  | u :: us => by
    simp only [buildUpdates, askingUpdates, run_bind, run_pure, UpdateSpec.build_eq_run u,
      buildUpdates_eq_run us]

theorem UpdateSpec.build_eq_run : ∀ u : UpdateSpec, u.build resolve = u.asking.run resolve
  | ⟨some _, _, _, _, _, _⟩ => by
    simp only [UpdateSpec.build, UpdateSpec.asking, run_bind, run_settled, run_pure]
  | ⟨none, some _, _, _, _, _⟩ => by
    simp only [UpdateSpec.build, UpdateSpec.asking, run_bind, run_settled, run_pure]
  | ⟨none, none, some _, _, _, _⟩ => by
    simp only [UpdateSpec.build, UpdateSpec.asking, run_bind, run_settled, run_pure]
  | ⟨none, none, none, some _, _, _⟩ => by
    simp only [UpdateSpec.build, UpdateSpec.asking, run_bind, run_settled, run_pure]
  | ⟨none, none, none, none, some _, _⟩ => by
    simp only [UpdateSpec.build, UpdateSpec.asking, run_bind, run_settled, run_pure]
  | ⟨none, none, none, none, none, some (some root)⟩ => by
    simp only [UpdateSpec.build, UpdateSpec.asking, run_bind, run_settled, run_pure,
      NodeSpec.build_eq_run root]
  | ⟨none, none, none, none, none, some none⟩ => rfl
  | ⟨none, none, none, none, none, none⟩ => rfl

end

end

/-- Asks for some indexes only, and where it fails by itself, it is not for a reference. -/
def Asks.Proper {α : Type} (references : List UInt32) : Asks α → Prop
  | settled result => OwnFaults result
  | ask index next => index ∈ references ∧ ∀ node, (next node).Proper references

namespace Asks.Proper

variable {α β : Type} {references references' : List UInt32}

theorem of {r : Except Error α} (h : OwnFaults r) : (settled r).Proper references := h

theorem pure (v : α) : (Pure.pure v : Asks α).Proper references := OwnFaults.ok v

theorem mono (hsub : references ⊆ references') :
    ∀ {p : Asks α}, p.Proper references → p.Proper references'
  | settled _, h => h
  | ask _ _, h => ⟨hsub h.1, fun node => mono hsub (h.2 node)⟩

theorem bind {f : α → Asks β} (hf : ∀ v, (f v).Proper references) :
    ∀ {p : Asks α}, p.Proper references → (p >>= f).Proper references
  | settled (.ok v), _ => hf v
  | settled (.error err), h => fun err' h' => h err' (by cases h'; rfl)
  | ask _ _, h => ⟨h.1, fun node => bind hf (h.2 node)⟩

/-- One dialogue after another asks for what they both do. -/
theorem append {f : α → Asks β} {p : Asks α} (h : p.Proper references)
    (hf : ∀ v, (f v).Proper references') : (p >>= f).Proper (references ++ references') :=
  bind (fun v => (hf v).mono (List.subset_append_right _ _))
    (h.mono (List.subset_append_left _ _))

end Asks.Proper

mutual

/-- Building a node asks for its references only. -/
theorem NodeSpec.asking_proper : ∀ n : NodeSpec, n.asking.Proper n.references
  | ⟨name, index, debugInfo, none, none, stop⟩ => by
    unfold NodeSpec.asking
    exact .bind (fun _ => .pure _) (.of (NodeSpec.sort_ownFaults _))
  | ⟨name, index, debugInfo, none, some p, stop⟩ => by
    unfold NodeSpec.asking
    exact .bind (fun _ => .bind (fun _ => .pure _) (.of p.build_ownFaults))
      (.of (NodeSpec.sort_ownFaults _))
  | ⟨name, index, debugInfo, some b, population, stop⟩ => by
    unfold NodeSpec.asking
    exact .bind (fun _ => .bind (fun _ => .pure _) (BranchSpec.asking_proper b))
      (.of (NodeSpec.sort_ownFaults _))

theorem BranchSpec.asking_proper : ∀ b : BranchSpec, b.asking.Proper b.references
  | ⟨edges, seed, some us, multiplicity⟩ => by
    unfold BranchSpec.asking
    split_ifs
    · exact .of (.fault id)
    · refine .append (askingChildren_proper edges) fun children => .bind (fun selector => ?_)
        (.of (BranchSpec.selector_ownFaults edges seed))
      rcases multiplicity with _ | m
      · exact .bind (fun _ => .pure _) (askingUpdates_proper us)
      · exact .of (.fault id)
  | ⟨edges, seed, none, multiplicity⟩ => by
    unfold BranchSpec.asking
    split_ifs
    · exact .of (.fault id)
    · refine .bind (fun children => .bind (fun selector => ?_)
        (.of (BranchSpec.selector_ownFaults edges seed))) (askingChildren_proper edges)
      rcases multiplicity with _ | m
      · exact .pure _
      · exact .bind (fun _ => .pure _) (.of m.build_ownFaults)

theorem askingChildren_proper : ∀ es : List EdgeSpec,
    (askingChildren es).Proper (edgesReferences es)
  | [] => .pure []
  | e :: es => .append (EdgeSpec.asking_proper e) fun _ =>
    .bind (fun _ => .pure _) (askingChildren_proper es)

theorem EdgeSpec.asking_proper : ∀ e : EdgeSpec, e.asking.Proper e.references
  | ⟨none, some i, _, _⟩ => ⟨List.mem_singleton_self i, fun node => .pure node⟩
  | ⟨some n, none, _, _⟩ => NodeSpec.asking_proper n
  | ⟨none, none, _, _⟩ => .of (.fault id)
  | ⟨some _, some _, _, _⟩ => .of (.fault id)

theorem askingUpdates_proper : ∀ us : List UpdateSpec,
    (askingUpdates us).Proper (updatesReferences us)
  | [] => .pure []
  | u :: us => .append (UpdateSpec.asking_proper u) fun _ =>
    .bind (fun _ => .pure _) (askingUpdates_proper us)

theorem UpdateSpec.asking_proper : ∀ u : UpdateSpec, u.asking.Proper u.references
  | ⟨matrix, sparseMatrix, merge, assignment, shredder, tree⟩ => by
    unfold UpdateSpec.asking
    refine .bind (fun _ => ?_) (.of (UpdateSpec.sort_ownFaults _))
    split
    · exact .bind (fun _ => .pure _) (.of (MatrixSpec.build_ownFaults _))
    · exact .bind (fun _ => .pure _) (.of (SparseMatrixSpec.build_ownFaults _))
    · exact .bind (fun _ => .pure _) (.of (ConditionalMergeSpec.build_ownFaults _))
    · exact .bind (fun _ => .pure _) (.of (ConditionalAssignmentSpec.build_ownFaults _))
    · exact .bind (fun _ => .pure _) (.of (ShredderSpec.build_ownFaults _))
    · exact .bind (fun _ => .pure _) (NodeSpec.asking_proper _)
    · exact .of (.fault id)

end

end VirtualPeople
