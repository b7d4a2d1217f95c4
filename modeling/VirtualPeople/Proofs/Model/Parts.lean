import VirtualPeople.Proofs.Model.ListedTree
import VirtualPeople.Proofs.Outcome

/-!
# What holds of all parts of a built tree

If building makes only selectors, leaves, multiplicities and updates with a property, then a built
tree has it everywhere (`Node.all_of_built`), whichever of the nodes were held by their parents and
whichever were listed.
-/

namespace VirtualPeople

/-- A property for each sort of part; the one of a selector is told how many children there are. -/
structure Parts where
  selector : Nat → Selector → Prop
  multiplicity : Multiplicity → Prop
  leaf : Population → Prop
  matrix : Matrix → Prop
  sparseMatrix : SparseMatrix → Prop
  merge : ConditionalMerge → Prop
  assignment : ConditionalAssignment → Prop
  shredder : Shredder → Prop

/-- Whatever is built of a written part has the property. -/
structure Parts.OfBuilds (P : Parts) : Prop where
  selector : ∀ edges seed s, BranchSpec.selector edges seed = .ok s → P.selector edges.length s
  multiplicity : ∀ m built, MultiplicitySpec.build m = .ok built → P.multiplicity built
  leaf : ∀ p built, PopulationSpec.build p = .ok built → P.leaf built
  matrix : ∀ m built, MatrixSpec.build m = .ok built → P.matrix built
  sparseMatrix : ∀ m built, SparseMatrixSpec.build m = .ok built → P.sparseMatrix built
  merge : ∀ m built, ConditionalMergeSpec.build m = .ok built → P.merge built
  assignment : ∀ a built, ConditionalAssignmentSpec.build a = .ok built → P.assignment built
  shredder : ∀ s built, ShredderSpec.build s = .ok built → P.shredder built

mutual

/-- All parts of a node have a property, at any depth and in trees of updates. -/
def Node.All (P : Parts) : Node → Prop
  | ⟨_, _, _, kind⟩ => kind.All P

def NodeKind.All (P : Parts) : NodeKind → Prop
  | .branch children selector action =>
    P.selector children.length selector ∧ childrenAll P children ∧ action.All P
  | .population leaf => P.leaf leaf
  | .stop => True

def Action.All (P : Parts) : Action → Prop
  | .none => True
  | .updates us => updatesAll P us
  | .multiplicity m => P.multiplicity m

def childrenAll (P : Parts) : List Node → Prop
  | [] => True
  | child :: rest => child.All P ∧ childrenAll P rest

def updatesAll (P : Parts) : List Update → Prop
  | [] => True
  | u :: rest => u.All P ∧ updatesAll P rest

def Update.All (P : Parts) : Update → Prop
  | .matrix m => P.matrix m
  | .sparseMatrix m => P.sparseMatrix m
  | .merge m => P.merge m
  | .assignment a => P.assignment a
  | .shredder s => P.shredder s
  | .tree root => root.All P

end

section

variable {resolve : UInt32 → Build Node} {P : Parts}

theorem length_of_buildChildren : ∀ (es : List EdgeSpec) {s children s'},
    buildChildren resolve es s = .ok children s' → children.length = es.length
  | [], _, _, _, h => by
    obtain ⟨rfl, -⟩ := Build.pure_eq_ok.1 h
    rfl
  | e :: es, _, _, _, h => by
    obtain ⟨child, t, others, -, ho, rfl⟩ := buildChildren_cons.1 h
    rw [List.length_cons, List.length_cons, length_of_buildChildren es ho]

theorem UpdateSpec.all_leaf (hP : P.OfBuilds) {matrix sparseMatrix merge assignment shredder}
    {s s' : Arena} {update : Update}
    (h : UpdateSpec.build resolve ⟨matrix, sparseMatrix, merge, assignment, shredder, none⟩ s
      = .ok update s') : update.All P := by
  rcases matrix with _ | m
  · rcases sparseMatrix with _ | m
    · rcases merge with _ | m
      · rcases assignment with _ | a
        · rcases shredder with _ | d
          · simp only [UpdateSpec.build, Build.bind_eq_ok, Build.fail_ne_ok] at h
            obtain ⟨_, _, -, h⟩ := h
            exact h.elim
          · simp only [UpdateSpec.build, Build.bind_eq_ok, Build.of_eq_ok, Build.pure_eq_ok] at h
            obtain ⟨_, _, -, built, _, ⟨hd, -⟩, rfl, -⟩ := h
            exact hP.shredder d built hd
        · simp only [UpdateSpec.build, Build.bind_eq_ok, Build.of_eq_ok, Build.pure_eq_ok] at h
          obtain ⟨_, _, -, built, _, ⟨ha, -⟩, rfl, -⟩ := h
          exact hP.assignment a built ha
      · simp only [UpdateSpec.build, Build.bind_eq_ok, Build.of_eq_ok, Build.pure_eq_ok] at h
        obtain ⟨_, _, -, built, _, ⟨hm, -⟩, rfl, -⟩ := h
        exact hP.merge m built hm
    · simp only [UpdateSpec.build, Build.bind_eq_ok, Build.of_eq_ok, Build.pure_eq_ok] at h
      obtain ⟨_, _, -, built, _, ⟨hm, -⟩, rfl, -⟩ := h
      exact hP.sparseMatrix m built hm
  · simp only [UpdateSpec.build, Build.bind_eq_ok, Build.of_eq_ok, Build.pure_eq_ok] at h
    obtain ⟨_, _, -, built, _, ⟨hm, -⟩, rfl, -⟩ := h
    exact hP.matrix m built hm

mutual

theorem NodeSpec.build_all (hP : P.OfBuilds)
    (hr : ∀ i s node s', resolve i s = .ok node s' → node.All P) :
    ∀ (n : NodeSpec) {s node s'}, n.build resolve s = .ok node s' → node.All P
  | ⟨_, _, _, none, none, _⟩, _, _, _, h => by
    simp only [NodeSpec.build, Build.bind_eq_ok, Build.pure_eq_ok] at h
    obtain ⟨_, _, -, rfl, -⟩ := h
    trivial
  | ⟨_, _, _, none, some p, _⟩, _, _, _, h => by
    simp only [NodeSpec.build, Build.bind_eq_ok, Build.of_eq_ok, Build.pure_eq_ok] at h
    obtain ⟨_, _, -, built, _, ⟨hp, -⟩, rfl, -⟩ := h
    exact hP.leaf p built hp
  | ⟨_, _, _, some b, _, _⟩, _, _, _, h => by
    obtain ⟨-, kind, hb, rfl⟩ := NodeSpec.build_branch.1 h
    exact BranchSpec.build_all hP hr b hb

theorem BranchSpec.build_all (hP : P.OfBuilds)
    (hr : ∀ i s node s', resolve i s = .ok node s' → node.All P) :
    ∀ (b : BranchSpec) {s kind s'}, b.build resolve s = .ok kind s' → kind.All P
  | ⟨edges, seed, updates, multiplicity⟩, _, _, _, h => by
    obtain ⟨-, children, t, selector, action, hc, hsel, ha, rfl⟩ := BranchSpec.build_eq_ok.1 h
    refine ⟨?_, buildChildren_all hP hr edges hc, ?_⟩
    · rw [length_of_buildChildren edges hc]
      exact hP.selector edges seed selector hsel
    · match updates, multiplicity, ha with
      | none, none, ha =>
        obtain ⟨rfl, -⟩ := Build.pure_eq_ok.1 ha
        trivial
      | none, some m, ha =>
        obtain ⟨built, _, hm, ha⟩ := Build.bind_eq_ok.1 ha
        obtain ⟨rfl, -⟩ := Build.pure_eq_ok.1 ha
        exact hP.multiplicity m built (Build.of_eq_ok.1 hm).1
      | some us, none, ha =>
        obtain ⟨built, _, hu, ha⟩ := Build.bind_eq_ok.1 ha
        obtain ⟨rfl, -⟩ := Build.pure_eq_ok.1 ha
        exact buildUpdates_all hP hr us hu
      | some _, some _, ha => exact (Build.fail_ne_ok ha).elim

theorem buildChildren_all (hP : P.OfBuilds)
    (hr : ∀ i s node s', resolve i s = .ok node s' → node.All P) :
    ∀ (es : List EdgeSpec) {s children s'}, buildChildren resolve es s = .ok children s' →
      childrenAll P children
  | [], _, _, _, h => by
    obtain ⟨rfl, -⟩ := Build.pure_eq_ok.1 h
    trivial
  | e :: es, _, _, _, h => by
    obtain ⟨child, t, others, hc, ho, rfl⟩ := buildChildren_cons.1 h
    exact ⟨EdgeSpec.buildChild_all hP hr e hc, buildChildren_all hP hr es ho⟩

theorem EdgeSpec.buildChild_all (hP : P.OfBuilds)
    (hr : ∀ i s node s', resolve i s = .ok node s' → node.All P) :
    ∀ (e : EdgeSpec) {s child s'}, e.buildChild resolve s = .ok child s' → child.All P
  | ⟨none, some i, _, _⟩, s, child, s', h => hr i s child s' h
  | ⟨some n, none, _, _⟩, _, _, _, h => NodeSpec.build_all hP hr n h
  | ⟨none, none, _, _⟩, _, _, _, h => (Build.fail_ne_ok h).elim
  | ⟨some _, some _, _, _⟩, _, _, _, h => (Build.fail_ne_ok h).elim

theorem buildUpdates_all (hP : P.OfBuilds)
    (hr : ∀ i s node s', resolve i s = .ok node s' → node.All P) :
    ∀ (us : List UpdateSpec) {s updates s'}, buildUpdates resolve us s = .ok updates s' →
      updatesAll P updates
  | [], _, _, _, h => by
    obtain ⟨rfl, -⟩ := Build.pure_eq_ok.1 h
    trivial
  | u :: us, _, _, _, h => by
    obtain ⟨update, t, others, hu, ho, rfl⟩ := buildUpdates_cons.1 h
    exact ⟨UpdateSpec.build_all hP hr u hu, buildUpdates_all hP hr us ho⟩

theorem UpdateSpec.build_all (hP : P.OfBuilds)
    (hr : ∀ i s node s', resolve i s = .ok node s' → node.All P) :
    ∀ (u : UpdateSpec) {s update s'}, u.build resolve s = .ok update s' → update.All P
  | ⟨_, _, _, _, _, none⟩, _, _, _, h => UpdateSpec.all_leaf hP h
  | ⟨_, _, _, _, _, some none⟩, _, _, _, h => by
    obtain ⟨-, n, node, hn, -⟩ := UpdateSpec.build_tree.1 h
    cases hn
  | ⟨_, _, _, _, _, some (some root)⟩, _, _, _, h => by
    obtain ⟨-, n, node, hroot, hn, rfl⟩ := UpdateSpec.build_tree.1 h
    cases hroot
    exact NodeSpec.build_all hP hr root hn

end

theorem followTo_all (hP : P.OfBuilds) {nodes : List NodeSpec}
    (refuses : ∀ i s node s', ¬ resolve i s = .ok node s') :
    ∀ (depth : Nat) (i : UInt32) (s : Arena) (node : Node) (s' : Arena),
      followTo nodes resolve depth i s = .ok node s' → node.All P
  | 0, i, s, node, s', h => (refuses i s node s' h).elim
  | depth + 1, i, s, node, s', h => by
    obtain ⟨n, -, hb⟩ := followTo_succ refuses h
    exact n.build_all hP (followTo_all hP refuses depth) hb

end

namespace Node

/-- A tree that is built of a root, of a list of nodes, or of a model in either form. -/
inductive Built (node : Node) : Prop
  | ofRoot {root : NodeSpec} (h : ofRoot root = .ok node)
  | ofNodes {nodes : List NodeSpec} (h : ofNodes nodes = .ok node)
  | ofModel {model : ModelSpec} (h : ofModel model = .ok node)

theorem all_of_ofRoot {P : Parts} (hP : P.OfBuilds) {root : NodeSpec} {node : Node}
    (h : ofRoot root = .ok node) : node.All P := by
  obtain ⟨s, hb⟩ := ofRoot_eq_ok.1 h
  refine root.build_all hP ?_ hb
  intro i s child s' hi
  exact (Arena.resolveTo_zero i s child s' hi).elim

theorem all_of_ofNodes {P : Parts} (hP : P.OfBuilds) {nodes : List NodeSpec} {node : Node}
    (h : ofNodes nodes = .ok node) : node.All P := by
  obtain ⟨root, -, depth, hb⟩ := attached_of_ofNodes h
  obtain ⟨s, hb⟩ := ofRoot_eq_ok.1 hb
  rw [NodeSpec.inlined_build] at hb
  exact root.build_all hP (followTo_all hP Arena.resolveTo_zero depth) hb

theorem all_of_built {P : Parts} (hP : P.OfBuilds) {node : Node} (h : node.Built) :
    node.All P := by
  cases h with
  | ofRoot h => exact all_of_ofRoot hP h
  | ofNodes h => exact all_of_ofNodes hP h
  | @ofModel model h =>
    simp only [Node.ofModel, bind_eq_ok] at h
    obtain ⟨-, -, h⟩ := h
    split at h
    · exact all_of_ofRoot hP h
    · exact all_of_ofNodes hP h

end Node

end VirtualPeople
