import VirtualPeople.Proofs.Model.Building
import Mathlib.Data.List.Perm.Basic
import Mathlib.Logic.Relation

/-!
# Inlining listed nodes

A reference means the node that it names. Building a node with other nodes put in the place of its
references is building it while the references resolve to those nodes (`NodeSpec.inline_build`),
so the tree inlined to a depth is built as the node itself is where references are followed that
deep (`NodeSpec.inlined_build`). The references followed on the way are the `chain` of a node; once
followed to the end, they are those of the node and those of every node among them (`chain_perm`).
-/

namespace VirtualPeople

mutual

/-- A node with the nodes that are found in the place of its references. -/
def NodeSpec.inline (find : UInt32 → Option NodeSpec) : NodeSpec → NodeSpec
  | ⟨name, index, debugInfo, none, population, stop⟩ =>
    ⟨name, index, debugInfo, none, population, stop⟩
  | ⟨name, index, debugInfo, some b, population, stop⟩ =>
    ⟨name, index, debugInfo, some (b.inline find), population, stop⟩

def BranchSpec.inline (find : UInt32 → Option NodeSpec) : BranchSpec → BranchSpec
  | ⟨edges, seed, none, multiplicity⟩ => ⟨inlineEdges find edges, seed, none, multiplicity⟩
  | ⟨edges, seed, some updates, multiplicity⟩ =>
    ⟨inlineEdges find edges, seed, some (inlineUpdates find updates), multiplicity⟩

def inlineEdges (find : UInt32 → Option NodeSpec) : List EdgeSpec → List EdgeSpec
  | [] => []
  | e :: rest => e.inline find :: inlineEdges find rest

def EdgeSpec.inline (find : UInt32 → Option NodeSpec) : EdgeSpec → EdgeSpec
  | ⟨none, none, chance, condition⟩ => ⟨none, none, chance, condition⟩
  | ⟨none, some index, chance, condition⟩ =>
    match find index with
    | some n => ⟨some n, none, chance, condition⟩
    | none => ⟨none, some index, chance, condition⟩
  | ⟨some child, index, chance, condition⟩ => ⟨some (child.inline find), index, chance, condition⟩

def inlineUpdates (find : UInt32 → Option NodeSpec) : List UpdateSpec → List UpdateSpec
  | [] => []
  | u :: rest => u.inline find :: inlineUpdates find rest

def UpdateSpec.inline (find : UInt32 → Option NodeSpec) : UpdateSpec → UpdateSpec
  | ⟨matrix, sparseMatrix, merge, assignment, shredder, none⟩ =>
    ⟨matrix, sparseMatrix, merge, assignment, shredder, none⟩
  | ⟨matrix, sparseMatrix, merge, assignment, shredder, some none⟩ =>
    ⟨matrix, sparseMatrix, merge, assignment, shredder, some none⟩
  | ⟨matrix, sparseMatrix, merge, assignment, shredder, some (some root)⟩ =>
    ⟨matrix, sparseMatrix, merge, assignment, shredder, some (some (root.inline find))⟩

end

/-- What resolves a reference to the node that is found for it. -/
def resolveBy (find : UInt32 → Option NodeSpec) (resolve : UInt32 → Build Node) (i : UInt32) :
    Build Node :=
  match find i with
  | some n => n.build resolve
  | none => resolve i

section

variable (find : UInt32 → Option NodeSpec) (resolve : UInt32 → Build Node)

theorem EdgeSpec.inline_selector (e : EdgeSpec) : (e.inline find).selector = e.selector := by
  rcases e with ⟨_ | child, _ | i, chance, condition⟩
  · rfl
  · simp only [EdgeSpec.inline]
    rcases find i with _ | n <;> rfl
  · rfl
  · rfl

theorem inlineEdges_eq_map (es : List EdgeSpec) : inlineEdges find es = es.map (·.inline find) := by
  induction es with
  | nil => rfl
  | cons e es ih => rw [inlineEdges, ih, List.map_cons]

/-- The selector of a branching node is built of the selectors of its branches alone. -/
theorem BranchSpec.selector_congr {es es' : List EdgeSpec} (seed : Option String)
    (h : es.map EdgeSpec.selector = es'.map EdgeSpec.selector) :
    BranchSpec.selector es seed = BranchSpec.selector es' seed := by
  have hm (es : List EdgeSpec) :
      es.mapM EdgeSpec.selector = (es.map EdgeSpec.selector).mapM id := by
    rw [List.mapM_map]
    rfl
  rw [BranchSpec.selector, BranchSpec.selector, hm es, hm es', h]

theorem inlineEdges_selector (es : List EdgeSpec) (seed : Option String) :
    BranchSpec.selector (inlineEdges find es) seed = BranchSpec.selector es seed := by
  apply BranchSpec.selector_congr
  rw [inlineEdges_eq_map, List.map_map]
  exact List.map_congr_left fun e _ => EdgeSpec.inline_selector find e

mutual

/-- A node is built with others in the place of its references as it is where these resolve to
them. -/
theorem NodeSpec.inline_build :
    ∀ n : NodeSpec, (n.inline find).build resolve = n.build (resolveBy find resolve)
  | ⟨name, index, debugInfo, none, population, stop⟩ => by
    obtain ⟨r, h⟩ := NodeSpec.build_leaf name index debugInfo population stop
    rw [NodeSpec.inline, h, h]
  | ⟨name, index, debugInfo, some b, population, stop⟩ => by
    have hsort : NodeSpec.sort ⟨name, index, debugInfo, some (b.inline find), population, stop⟩
        = NodeSpec.sort ⟨name, index, debugInfo, some b, population, stop⟩ := by
      rcases population with _ | p <;> rcases stop with _ | t <;> rfl
    rw [NodeSpec.inline, NodeSpec.build, NodeSpec.build, BranchSpec.inline_build b, hsort]

theorem BranchSpec.inline_build :
    ∀ b : BranchSpec, (b.inline find).build resolve = b.build (resolveBy find resolve)
  | ⟨[], seed, updates, multiplicity⟩ => by
    rcases updates with _ | us
    · rw [BranchSpec.inline, BranchSpec.build, BranchSpec.build]
      rfl
    · rw [BranchSpec.inline, BranchSpec.build, BranchSpec.build]
      rfl
  | ⟨e :: es, seed, none, multiplicity⟩ => by
    rw [BranchSpec.inline, inlineEdges, BranchSpec.build_cons, BranchSpec.build_cons,
      ← inlineEdges, buildChildren_inline (e :: es), inlineEdges_selector]
    rcases multiplicity with _ | m <;> rfl
  | ⟨e :: es, seed, some us, multiplicity⟩ => by
    rw [BranchSpec.inline, inlineEdges, BranchSpec.build_cons, BranchSpec.build_cons,
      ← inlineEdges, buildChildren_inline (e :: es), inlineEdges_selector]
    rcases multiplicity with _ | m
    · rw [BranchSpec.buildAction, BranchSpec.buildAction, buildUpdates_inline us]
    · rfl

theorem buildChildren_inline : ∀ es : List EdgeSpec,
    buildChildren resolve (inlineEdges find es) = buildChildren (resolveBy find resolve) es
  | [] => rfl
  | e :: es => by
    rw [inlineEdges, buildChildren, buildChildren, EdgeSpec.inline_build e,
      buildChildren_inline es]

theorem EdgeSpec.inline_build :
    ∀ e : EdgeSpec, (e.inline find).buildChild resolve = e.buildChild (resolveBy find resolve)
  | ⟨none, none, _, _⟩ => rfl
  | ⟨none, some i, chance, condition⟩ => by
    rw [EdgeSpec.inline, EdgeSpec.buildChild, resolveBy]
    rcases find i with _ | n <;> rfl
  | ⟨some child, none, _, _⟩ => by
    rw [EdgeSpec.inline, EdgeSpec.buildChild, EdgeSpec.buildChild, NodeSpec.inline_build child]
  | ⟨some _, some _, _, _⟩ => rfl

theorem buildUpdates_inline : ∀ us : List UpdateSpec,
    buildUpdates resolve (inlineUpdates find us) = buildUpdates (resolveBy find resolve) us
  | [] => rfl
  | u :: us => by
    rw [inlineUpdates, buildUpdates, buildUpdates, UpdateSpec.inline_build u,
      buildUpdates_inline us]

theorem UpdateSpec.inline_build :
    ∀ u : UpdateSpec, (u.inline find).build resolve = u.build (resolveBy find resolve)
  | ⟨matrix, sparseMatrix, merge, assignment, shredder, none⟩ => by
    obtain ⟨r, h⟩ := UpdateSpec.build_leaf matrix sparseMatrix merge assignment shredder
    rw [UpdateSpec.inline, h, h]
  | ⟨matrix, sparseMatrix, merge, assignment, shredder, some none⟩ => by
    obtain ⟨err, h⟩ := UpdateSpec.build_rootless matrix sparseMatrix merge assignment shredder
    rw [UpdateSpec.inline, h, h]
  | ⟨matrix, sparseMatrix, merge, assignment, shredder, some (some root)⟩ => by
    rw [UpdateSpec.inline, UpdateSpec.build_root, UpdateSpec.build_root,
      NodeSpec.inline_build root]
    rfl

end

end

/-- The listed node of an index. -/
def listed (nodes : List NodeSpec) (i : UInt32) : Option NodeSpec :=
  nodes.find? fun n => n.index = some i

/-- A node with the listed nodes in the place of its references, and of theirs, down to a depth. -/
def NodeSpec.inlined (nodes : List NodeSpec) : Nat → NodeSpec → NodeSpec
  | 0, n => n
  | depth + 1, n => n.inline fun i => (listed nodes i).map (NodeSpec.inlined nodes depth)

/-- Resolves a reference to the listed node and its references alike, down to a depth. -/
def followTo (nodes : List NodeSpec) (resolve : UInt32 → Build Node) :
    (depth : Nat) → UInt32 → Build Node
  | 0, i => resolve i
  | depth + 1, i =>
    match listed nodes i with
    | some n => n.build (followTo nodes resolve depth)
    | none => resolve i

/-- The indexes that a listed node refers to. -/
def referencesOf (nodes : List NodeSpec) (i : UInt32) : List UInt32 :=
  match listed nodes i with
  | some n => n.references
  | none => []

/-- The references followed from an index, itself included, down to a depth. -/
def chain (nodes : List NodeSpec) : (depth : Nat) → UInt32 → List UInt32
  | 0, _ => []
  | depth + 1, i => i :: (referencesOf nodes i).flatMap (chain nodes depth)

/-- From an index the references come to an end within a depth. -/
def Settled (nodes : List NodeSpec) : (depth : Nat) → UInt32 → Prop
  | 0, _ => False
  | depth + 1, i => ∃ n, listed nodes i = some n ∧ ∀ j ∈ n.references, Settled nodes depth j

/-- A listed node refers to another. -/
def RefersTo (nodes : List NodeSpec) (n n' : NodeSpec) : Prop :=
  ∃ i ∈ n.references, listed nodes i = some n'

section

variable {nodes : List NodeSpec} {resolve : UInt32 → Build Node}

theorem NodeSpec.inlined_build (depth : Nat) (n : NodeSpec) :
    (n.inlined nodes depth).build resolve = n.build (followTo nodes resolve depth) := by
  induction depth generalizing n with
  | zero => rfl
  | succ depth ih =>
    have h : resolveBy (fun i => (listed nodes i).map (NodeSpec.inlined nodes depth)) resolve
        = followTo nodes resolve (depth + 1) := by
      funext i
      simp only [resolveBy, followTo]
      rcases listed nodes i with _ | n
      · rfl
      · exact ih n
    rw [NodeSpec.inlined, NodeSpec.inline_build, h]

theorem mem_of_listed {i : UInt32} {n : NodeSpec} (h : listed nodes i = some n) :
    n ∈ nodes ∧ n.index = some i :=
  ⟨List.mem_of_find?_eq_some h, by simpa using List.find?_some h⟩

theorem chain_succ {depth : Nat} {i : UInt32} {n : NodeSpec} (h : listed nodes i = some n) :
    chain nodes (depth + 1) i = i :: n.references.flatMap (chain nodes depth) := by
  rw [chain, referencesOf, h]

/-- Followed to the end, the references of a node are its own and those of every node among them. -/
theorem flatMap_chain_perm {depth : Nat} {is : List UInt32}
    (h : ∀ i ∈ is, (chain nodes depth i).Perm
      (i :: (chain nodes depth i).flatMap (referencesOf nodes))) :
    (is.flatMap (chain nodes depth)).Perm
      (is ++ (is.flatMap (chain nodes depth)).flatMap (referencesOf nodes)) := by
  induction is with
  | nil => exact .refl _
  | cons i is ih =>
    have hi := h i List.mem_cons_self
    have his := ih fun j hj => h j (List.mem_cons_of_mem i hj)
    rw [List.flatMap_cons, List.flatMap_append]
    refine (hi.append his).trans ?_
    rw [List.cons_append, List.cons_append]
    exact .cons i (List.perm_append_comm_assoc ..)

theorem chain_perm :
    ∀ (depth : Nat) {i : UInt32}, Settled nodes depth i →
      (chain nodes depth i).Perm (i :: (chain nodes depth i).flatMap (referencesOf nodes))
  | 0, _, h => h.elim
  | depth + 1, i, h => by
    obtain ⟨n, hn, hsettled⟩ := h
    rw [chain_succ hn, List.flatMap_cons, referencesOf, hn]
    exact .cons i (flatMap_chain_perm fun j hj => chain_perm depth (hsettled j hj))

end

section

variable {nodes : List NodeSpec} {resolve : UInt32 → Build Node}
  (refuses : ∀ i s node s', resolve i s ≠ .ok node s')

include refuses

theorem followTo_succ {depth : Nat} {i : UInt32} {s s' : Arena} {node : Node}
    (h : followTo nodes resolve (depth + 1) i s = .ok node s') :
    ∃ n, listed nodes i = some n ∧ n.build (followTo nodes resolve depth) s = .ok node s' := by
  simp only [followTo] at h
  rcases hn : listed nodes i with _ | n
  · rw [hn] at h
    exact (refuses i s node s' h).elim
  · rw [hn] at h
    exact ⟨n, rfl, h⟩

theorem settled_of_followTo :
    ∀ (depth : Nat) {i s node s'}, followTo nodes resolve depth i s = .ok node s' →
      Settled nodes depth i
  | 0, i, s, node, s', h => (refuses i s node s' h).elim
  | depth + 1, i, s, node, s', h => by
    obtain ⟨n, hn, hb⟩ := followTo_succ refuses h
    refine ⟨n, hn, fun j hj => ?_⟩
    obtain ⟨t, child, t', hj⟩ := NodeSpec.resolve_of_build hb j hj
    exact settled_of_followTo depth hj

/-- What is followed from an index is listed, definite and reached from the node of the index. -/
theorem reached_of_mem_chain :
    ∀ (depth : Nat) {i s node s'}, followTo nodes resolve depth i s = .ok node s' →
      ∀ j ∈ chain nodes depth i, ∃ n m, listed nodes i = some n ∧ listed nodes j = some m ∧
        m.Definite ∧ Relation.ReflTransGen (RefersTo nodes) n m
  | 0, i, s, node, s', h => (refuses i s node s' h).elim
  | depth + 1, i, s, node, s', h => by
    obtain ⟨n, hn, hb⟩ := followTo_succ refuses h
    intro j hj
    rw [chain_succ hn, List.mem_cons, List.mem_flatMap] at hj
    rcases hj with rfl | ⟨k, hk, hj⟩
    · exact ⟨n, n, hn, hn, n.definite_of_build hb, .refl⟩
    · obtain ⟨t, child, t', hf⟩ := NodeSpec.resolve_of_build hb k hk
      obtain ⟨n', m, hn', hm, hdef, hreach⟩ := reached_of_mem_chain depth hf j hj
      exact ⟨n, m, hn, hm, hdef, .head ⟨k, hk, hn'⟩ hreach⟩

end

end VirtualPeople
