import VirtualPeople.Proofs.Model.Parts
import VirtualPeople.Proofs.Update.Quiet

/-!
# Quiet models

A model is quiet if no update in it carries activities, at any depth and in trees of updates. What
is built of a quiet tree, or of a list of quiet nodes, is quiet.
-/

namespace VirtualPeople

mutual

/-- No update of a node carries activities. -/
def NodeSpec.Quiet : NodeSpec → Prop
  | ⟨_, _, _, none, _, _⟩ => True
  | ⟨_, _, _, some b, _, _⟩ => b.Quiet

def BranchSpec.Quiet : BranchSpec → Prop
  | ⟨edges, _, none, _⟩ => edgesQuiet edges
  | ⟨edges, _, some updates, _⟩ => edgesQuiet edges ∧ updatesQuiet updates

def edgesQuiet : List EdgeSpec → Prop
  | [] => True
  | e :: rest => e.Quiet ∧ edgesQuiet rest

def EdgeSpec.Quiet : EdgeSpec → Prop
  | ⟨none, _, _, _⟩ => True
  | ⟨some child, _, _, _⟩ => child.Quiet

def updatesQuiet : List UpdateSpec → Prop
  | [] => True
  | u :: rest => u.Quiet ∧ updatesQuiet rest

def UpdateSpec.Quiet : UpdateSpec → Prop
  | ⟨matrix, sparseMatrix, merge, _, _, some (some root)⟩ =>
    (∀ m ∈ matrix, m.Quiet) ∧ (∀ m ∈ sparseMatrix, m.Quiet) ∧ (∀ m ∈ merge, m.Quiet) ∧ root.Quiet
  | ⟨matrix, sparseMatrix, merge, _, _, _⟩ =>
    (∀ m ∈ matrix, m.Quiet) ∧ (∀ m ∈ sparseMatrix, m.Quiet) ∧ ∀ m ∈ merge, m.Quiet

end

mutual

/-- No update of a node carries activities. -/
def Node.Quiet : Node → Prop
  | ⟨_, _, _, kind⟩ => kind.Quiet

def NodeKind.Quiet : NodeKind → Prop
  | .branch children _ action => childrenQuiet children ∧ action.Quiet
  | .population _ => True
  | .stop => True

def Action.Quiet : Action → Prop
  | .none => True
  | .updates us => allQuiet us
  | .multiplicity _ => True

def childrenQuiet : List Node → Prop
  | [] => True
  | child :: rest => child.Quiet ∧ childrenQuiet rest

def allQuiet : List Update → Prop
  | [] => True
  | u :: rest => u.Quiet ∧ allQuiet rest

def Update.Quiet : Update → Prop
  | .matrix m => m.Quiet
  | .sparseMatrix m => m.Quiet
  | .merge m => m.Quiet
  | .assignment _ => True
  | .shredder _ => True
  | .tree root => root.Quiet

end

section

variable {resolve : UInt32 → Build Node}

theorem UpdateSpec.quiet_leaf {matrix sparseMatrix merge assignment shredder}
    (hmatrix : ∀ m ∈ matrix, MatrixSpec.Quiet m)
    (hsparse : ∀ m ∈ sparseMatrix, SparseMatrixSpec.Quiet m)
    (hmerge : ∀ m ∈ merge, ConditionalMergeSpec.Quiet m) {s s' : Arena} {update : Update}
    (h : UpdateSpec.build resolve ⟨matrix, sparseMatrix, merge, assignment, shredder, none⟩ s
      = .ok update s') : update.Quiet := by
  rcases matrix with _ | m
  · rcases sparseMatrix with _ | m
    · rcases merge with _ | m
      · rcases assignment with _ | a
        · rcases shredder with _ | d
          · simp only [UpdateSpec.build, Build.bind_eq_ok, Build.fail_ne_ok] at h
            obtain ⟨_, _, -, h⟩ := h
            exact h.elim
          · simp only [UpdateSpec.build, Build.bind_eq_ok, Build.pure_eq_ok] at h
            obtain ⟨_, _, -, _, _, -, rfl, -⟩ := h
            trivial
        · simp only [UpdateSpec.build, Build.bind_eq_ok, Build.pure_eq_ok] at h
          obtain ⟨_, _, -, _, _, -, rfl, -⟩ := h
          trivial
      · simp only [UpdateSpec.build, Build.bind_eq_ok, Build.of_eq_ok, Build.pure_eq_ok] at h
        obtain ⟨_, _, -, built, _, ⟨hm, -⟩, rfl, -⟩ := h
        exact ConditionalMergeSpec.build_quiet (hmerge m rfl) hm
    · simp only [UpdateSpec.build, Build.bind_eq_ok, Build.of_eq_ok, Build.pure_eq_ok] at h
      obtain ⟨_, _, -, built, _, ⟨hm, -⟩, rfl, -⟩ := h
      exact SparseMatrixSpec.build_quiet (hsparse m rfl) hm
  · simp only [UpdateSpec.build, Build.bind_eq_ok, Build.of_eq_ok, Build.pure_eq_ok] at h
    obtain ⟨_, _, -, built, _, ⟨hm, -⟩, rfl, -⟩ := h
    exact MatrixSpec.build_quiet (hmatrix m rfl) hm

mutual

theorem NodeSpec.build_quiet (hr : ∀ i s node s', resolve i s = .ok node s' → node.Quiet) :
    ∀ (n : NodeSpec) {s node s'}, n.Quiet → n.build resolve s = .ok node s' → node.Quiet
  | ⟨name, index, debugInfo, none, none, stop⟩, _, _, _, _, h => by
    simp only [NodeSpec.build, Build.bind_eq_ok, Build.pure_eq_ok] at h
    obtain ⟨_, _, -, rfl, -⟩ := h
    trivial
  | ⟨name, index, debugInfo, none, some p, stop⟩, _, _, _, _, h => by
    simp only [NodeSpec.build, Build.bind_eq_ok, Build.pure_eq_ok] at h
    obtain ⟨_, _, -, _, _, -, rfl, -⟩ := h
    trivial
  | ⟨_, _, _, some b, _, _⟩, _, _, _, hq, h => by
    obtain ⟨-, kind, hb, rfl⟩ := NodeSpec.build_branch.1 h
    exact BranchSpec.build_quiet hr b hq hb

theorem BranchSpec.build_quiet (hr : ∀ i s node s', resolve i s = .ok node s' → node.Quiet) :
    ∀ (b : BranchSpec) {s kind s'}, b.Quiet → b.build resolve s = .ok kind s' → kind.Quiet
  | ⟨edges, _, none, multiplicity⟩, _, _, _, hq, h => by
    obtain ⟨-, children, t, selector, action, hc, -, ha, rfl⟩ := BranchSpec.build_eq_ok.1 h
    refine ⟨buildChildren_quiet hr edges hq hc, ?_⟩
    rcases multiplicity with _ | m
    · obtain ⟨rfl, -⟩ := Build.pure_eq_ok.1 ha
      trivial
    · obtain ⟨built, t, -, ha⟩ := Build.bind_eq_ok.1 ha
      obtain ⟨rfl, -⟩ := Build.pure_eq_ok.1 ha
      trivial
  | ⟨edges, _, some us, none⟩, _, _, _, hq, h => by
    obtain ⟨-, children, t, selector, action, hc, -, ha, rfl⟩ := BranchSpec.build_eq_ok.1 h
    obtain ⟨updates, t, hu, ha⟩ := Build.bind_eq_ok.1 ha
    obtain ⟨rfl, -⟩ := Build.pure_eq_ok.1 ha
    exact ⟨buildChildren_quiet hr edges hq.1 hc, buildUpdates_quiet hr us hq.2 hu⟩
  | ⟨_, _, some _, some _⟩, _, _, _, _, h => by
    obtain ⟨-, children, t, selector, action, -, -, ha, -⟩ := BranchSpec.build_eq_ok.1 h
    exact (Build.fail_ne_ok ha).elim

theorem buildChildren_quiet (hr : ∀ i s node s', resolve i s = .ok node s' → node.Quiet) :
    ∀ (es : List EdgeSpec) {s children s'}, edgesQuiet es →
      buildChildren resolve es s = .ok children s' → childrenQuiet children
  | [], _, _, _, _, h => by
    obtain ⟨rfl, -⟩ := Build.pure_eq_ok.1 h
    trivial
  | e :: es, _, _, _, hq, h => by
    obtain ⟨child, t, others, hc, ho, rfl⟩ := buildChildren_cons.1 h
    exact ⟨EdgeSpec.buildChild_quiet hr e hq.1 hc, buildChildren_quiet hr es hq.2 ho⟩

theorem EdgeSpec.buildChild_quiet (hr : ∀ i s node s', resolve i s = .ok node s' → node.Quiet) :
    ∀ (e : EdgeSpec) {s child s'}, e.Quiet → e.buildChild resolve s = .ok child s' → child.Quiet
  | ⟨none, some i, _, _⟩, s, child, s', _, h => hr i s child s' h
  | ⟨some n, none, _, _⟩, _, _, _, hq, h => NodeSpec.build_quiet hr n hq h
  | ⟨none, none, _, _⟩, _, _, _, _, h => (Build.fail_ne_ok h).elim
  | ⟨some _, some _, _, _⟩, _, _, _, _, h => (Build.fail_ne_ok h).elim

theorem buildUpdates_quiet (hr : ∀ i s node s', resolve i s = .ok node s' → node.Quiet) :
    ∀ (us : List UpdateSpec) {s updates s'}, updatesQuiet us →
      buildUpdates resolve us s = .ok updates s' → allQuiet updates
  | [], _, _, _, _, h => by
    obtain ⟨rfl, -⟩ := Build.pure_eq_ok.1 h
    trivial
  | u :: us, _, _, _, hq, h => by
    obtain ⟨update, t, others, hu, ho, rfl⟩ := buildUpdates_cons.1 h
    exact ⟨UpdateSpec.build_quiet hr u hq.1 hu, buildUpdates_quiet hr us hq.2 ho⟩

theorem UpdateSpec.build_quiet (hr : ∀ i s node s', resolve i s = .ok node s' → node.Quiet) :
    ∀ (u : UpdateSpec) {s update s'}, u.Quiet → u.build resolve s = .ok update s' → update.Quiet
  | ⟨_, _, _, _, _, none⟩, _, _, _, hq, h => UpdateSpec.quiet_leaf hq.1 hq.2.1 hq.2.2 h
  | ⟨_, _, _, _, _, some none⟩, _, _, _, _, h => by
    obtain ⟨-, n, node, hn, -⟩ := UpdateSpec.build_tree.1 h
    cases hn
  | ⟨_, _, _, _, _, some (some root)⟩, _, _, _, hq, h => by
    obtain ⟨-, n, node, hroot, hn, rfl⟩ := UpdateSpec.build_tree.1 h
    cases hroot
    exact NodeSpec.build_quiet hr root hq.2.2.2 hn

end

theorem followTo_quiet {nodes : List NodeSpec} (hq : ∀ n ∈ nodes, n.Quiet)
    (refuses : ∀ i s node s', ¬ resolve i s = .ok node s') :
    ∀ (depth : Nat) (i : UInt32) (s : Arena) (node : Node) (s' : Arena),
      followTo nodes resolve depth i s = .ok node s' → node.Quiet
  | 0, i, s, node, s', h => (refuses i s node s' h).elim
  | depth + 1, i, s, node, s', h => by
    obtain ⟨n, hn, hb⟩ := followTo_succ refuses h
    exact n.build_quiet (followTo_quiet hq refuses depth) (hq n (mem_of_listed hn).1) hb

end

theorem Node.quiet_of_ofRoot {root : NodeSpec} {node : Node} (hq : root.Quiet)
    (h : ofRoot root = .ok node) : node.Quiet := by
  obtain ⟨s, hb⟩ := ofRoot_eq_ok.1 h
  refine root.build_quiet ?_ hq hb
  intro i s child s' hi
  exact (Arena.resolveTo_zero i s child s' hi).elim

theorem Node.quiet_of_ofNodes {nodes : List NodeSpec} {node : Node} (hq : ∀ n ∈ nodes, n.Quiet)
    (h : ofNodes nodes = .ok node) : node.Quiet := by
  obtain ⟨root, hattached, depth, hb⟩ := attached_of_ofNodes h
  obtain ⟨s, hb⟩ := ofRoot_eq_ok.1 hb
  rw [NodeSpec.inlined_build] at hb
  exact root.build_quiet (followTo_quiet hq Arena.resolveTo_zero depth) (hq root hattached.mem) hb

/-- No update carries activities, and every multiplicity has a property. -/
def Parts.quiet (multiplicity : Multiplicity → Prop) : Parts where
  selector := fun _ _ => True
  multiplicity := multiplicity
  leaf := fun _ => True
  matrix := Matrix.Quiet
  sparseMatrix := SparseMatrix.Quiet
  merge := ConditionalMerge.Quiet
  assignment := fun _ => True
  shredder := fun _ => True

end VirtualPeople
