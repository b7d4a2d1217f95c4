import VirtualPeople.Model.Build
import VirtualPeople.Proofs.Outcome

/-!
# What building reads of an arena

Building a node resolves its references in order and reads nothing else of the arena
(`NodeSpec.build_follows`): if a second way of resolving can follow the first through the
references still to come, it builds the same node.
-/

namespace VirtualPeople

namespace Build

variable {α β : Type} {s c : Arena}

@[simp]
theorem bind_eq_ok {x : Build α} {f : α → Build β} {v : β} :
    (x >>= f) s = .ok v c ↔ ∃ u t, x s = .ok u t ∧ f u t = .ok v c :=
  run_bind_eq_ok

@[simp]
theorem pure_eq_ok {u v : α} : (pure u : Build α) s = .ok v c ↔ u = v ∧ s = c :=
  run_pure_eq_ok

@[simp]
theorem of_eq_ok {r : Except Error α} {v : α} : of r s = .ok v c ↔ r = .ok v ∧ s = c := by
  cases r <;> simp [of]

@[simp]
theorem fail_ne_ok {fault : ModelFault} {v : α} : ¬ fail fault s = .ok v c := by
  simp [fail, invalidModel]

theorem fail_bind (fault : ModelFault) (f : α → Build β) :
    (fail fault : Build α) >>= f = fail fault := rfl

theorem pure_eq (v : α) : (pure v : Build α) = of (.ok v) := rfl

theorem of_bind (r : Except Error α) (f : α → Except Error β) :
    (of r >>= fun v => of (f v)) = of (r >>= f) := by
  cases r <;> rfl

end Build

section

variable {resolve : UInt32 → Build Node} {s s' : Arena}

/-- A node without branches needs no arena. -/
theorem NodeSpec.build_leaf (name index debugInfo population stop) :
    ∃ r : Except Error Node, ∀ resolve,
      NodeSpec.build resolve ⟨name, index, debugInfo, none, population, stop⟩ = .of r := by
  rcases population with _ | p
  · exact ⟨_, fun _ => by rw [NodeSpec.build, Build.pure_eq, Build.of_bind]⟩
  · exact ⟨_, fun _ => by simp only [NodeSpec.build, Build.pure_eq, Build.of_bind]; rfl⟩

theorem NodeSpec.build_branch {name index debugInfo b population stop node} :
    NodeSpec.build resolve ⟨name, index, debugInfo, some b, population, stop⟩ s = .ok node s' ↔
      (population.isNone ∧ stop.isNone) ∧ ∃ kind, b.build resolve s = .ok kind s' ∧
        node = ⟨name.getD "", index, (debugInfo.bind (·.fromBuilder)).getD false, kind⟩ := by
  rw [NodeSpec.build, Build.bind_eq_ok]
  rcases population with _ | p
  · rcases stop with _ | t
    · constructor
      · rintro ⟨sort, t, hsort, h⟩
        obtain ⟨-, rfl⟩ := Build.of_eq_ok.1 hsort
        obtain ⟨kind, t, hb, h⟩ := Build.bind_eq_ok.1 h
        obtain ⟨rfl, rfl⟩ := Build.pure_eq_ok.1 h
        exact ⟨⟨rfl, rfl⟩, kind, hb, rfl⟩
      · rintro ⟨-, kind, hb, rfl⟩
        exact ⟨.branch, s, rfl, Build.bind_eq_ok.2 ⟨kind, s', hb, rfl⟩⟩
    · simp [NodeSpec.sort, invalidModel]
  · rcases stop with _ | t <;> simp [NodeSpec.sort, invalidModel]

namespace BranchSpec

/-- What is done before a child is selected. -/
def buildAction (resolve : UInt32 → Build Node) :
    Option (List UpdateSpec) → Option MultiplicitySpec → Build Action
  | some _, some _ => Build.fail .updatesAndMultiplicity
  | some us, none => return .updates (← buildUpdates resolve us)
  | none, some m => return .multiplicity (← Build.of m.build)
  | none, none => return .none

theorem build_cons (resolve : UInt32 → Build Node) (e es seed updates multiplicity) :
    BranchSpec.build resolve ⟨e :: es, seed, updates, multiplicity⟩ = do
      let children ← buildChildren resolve (e :: es)
      let selector ← Build.of (BranchSpec.selector (e :: es) seed)
      let action ← buildAction resolve updates multiplicity
      return .branch children selector action := by
  rw [BranchSpec.build, List.isEmpty_cons, if_neg Bool.false_ne_true]
  rcases updates with _ | us <;> rcases multiplicity with _ | m <;>
    simp only [buildAction, bind_assoc, pure_bind, Build.fail_bind]

theorem build_eq_ok {edges seed updates multiplicity kind} :
    BranchSpec.build resolve ⟨edges, seed, updates, multiplicity⟩ s = .ok kind s' ↔
      edges ≠ [] ∧ ∃ children t selector action, buildChildren resolve edges s = .ok children t ∧
        BranchSpec.selector edges seed = .ok selector ∧
        buildAction resolve updates multiplicity t = .ok action s' ∧
        kind = .branch children selector action := by
  rcases edges with _ | ⟨e, es⟩
  · rw [BranchSpec.build]
    simp
  · rw [build_cons, Build.bind_eq_ok]
    constructor
    · rintro ⟨children, t, hc, h⟩
      obtain ⟨selector, t, hk, h⟩ := Build.bind_eq_ok.1 h
      obtain ⟨hsel, rfl⟩ := Build.of_eq_ok.1 hk
      obtain ⟨action, t, ha, h⟩ := Build.bind_eq_ok.1 h
      obtain ⟨rfl, rfl⟩ := Build.pure_eq_ok.1 h
      exact ⟨List.cons_ne_nil e es, children, _, selector, action, hc, hsel, ha, rfl⟩
    · rintro ⟨-, children, t, selector, action, hc, hsel, ha, rfl⟩
      exact ⟨children, t, hc, Build.bind_eq_ok.2 ⟨selector, t, Build.of_eq_ok.2 ⟨hsel, rfl⟩,
        Build.bind_eq_ok.2 ⟨action, s', ha, rfl⟩⟩⟩

end BranchSpec

theorem buildChildren_cons {e : EdgeSpec} {es : List EdgeSpec} {children : List Node} :
    buildChildren resolve (e :: es) s = .ok children s' ↔
      ∃ child t others, e.buildChild resolve s = .ok child t ∧
        buildChildren resolve es t = .ok others s' ∧ children = child :: others := by
  rw [buildChildren, Build.bind_eq_ok]
  constructor
  · rintro ⟨child, t, hc, h⟩
    obtain ⟨others, t', ho, h⟩ := Build.bind_eq_ok.1 h
    obtain ⟨rfl, rfl⟩ := Build.pure_eq_ok.1 h
    exact ⟨child, t, others, hc, ho, rfl⟩
  · rintro ⟨child, t, others, hc, ho, rfl⟩
    exact ⟨child, t, hc, Build.bind_eq_ok.2 ⟨others, s', ho, rfl⟩⟩

theorem buildUpdates_cons {u : UpdateSpec} {us : List UpdateSpec} {updates : List Update} :
    buildUpdates resolve (u :: us) s = .ok updates s' ↔
      ∃ update t others, u.build resolve s = .ok update t ∧
        buildUpdates resolve us t = .ok others s' ∧ updates = update :: others := by
  rw [buildUpdates, Build.bind_eq_ok]
  constructor
  · rintro ⟨update, t, hu, h⟩
    obtain ⟨others, t', ho, h⟩ := Build.bind_eq_ok.1 h
    obtain ⟨rfl, rfl⟩ := Build.pure_eq_ok.1 h
    exact ⟨update, t, others, hu, ho, rfl⟩
  · rintro ⟨update, t, others, hu, ho, rfl⟩
    exact ⟨update, t, hu, Build.bind_eq_ok.2 ⟨others, s', ho, rfl⟩⟩

/-- An update without a tree needs no arena. -/
theorem UpdateSpec.build_leaf (matrix sparseMatrix merge assignment shredder) :
    ∃ r : Except Error Update, ∀ resolve,
      UpdateSpec.build resolve ⟨matrix, sparseMatrix, merge, assignment, shredder, none⟩
        = .of r := by
  rcases matrix with _ | m
  · rcases sparseMatrix with _ | m
    · rcases merge with _ | m
      · rcases assignment with _ | m
        · rcases shredder with _ | m
          · exact ⟨_, fun _ => by simp only [UpdateSpec.build, Build.fail, Build.of_bind]; rfl⟩
          · exact ⟨_, fun _ => by simp only [UpdateSpec.build, Build.pure_eq, Build.of_bind]; rfl⟩
        · exact ⟨_, fun _ => by simp only [UpdateSpec.build, Build.pure_eq, Build.of_bind]; rfl⟩
      · exact ⟨_, fun _ => by simp only [UpdateSpec.build, Build.pure_eq, Build.of_bind]; rfl⟩
    · exact ⟨_, fun _ => by simp only [UpdateSpec.build, Build.pure_eq, Build.of_bind]; rfl⟩
  · exact ⟨_, fun _ => by simp only [UpdateSpec.build, Build.pure_eq, Build.of_bind]; rfl⟩

theorem UpdateSpec.sort_tree {matrix sparseMatrix merge assignment shredder tree sort}
    (h : UpdateSpec.sort ⟨matrix, sparseMatrix, merge, assignment, shredder, some tree⟩
      = .ok sort) :
    matrix = none ∧ sparseMatrix = none ∧ merge = none ∧ assignment = none ∧ shredder = none := by
  cases matrix <;> cases sparseMatrix <;> cases merge <;> cases assignment <;> cases shredder <;>
    simp [UpdateSpec.sort, UpdateSpec.sorts, invalidModel] at h ⊢

/-- An update with a tree builds nothing else. -/
theorem UpdateSpec.build_root (resolve : UInt32 → Build Node) (matrix sparseMatrix merge assignment
    shredder root) :
    UpdateSpec.build resolve ⟨matrix, sparseMatrix, merge, assignment, shredder, some (some root)⟩
      = do
        let _ ← Build.of (UpdateSpec.sort
          ⟨matrix, sparseMatrix, merge, assignment, shredder, some (some root)⟩)
        return .tree (← root.build resolve) := by
  rcases hsort : UpdateSpec.sort
    ⟨matrix, sparseMatrix, merge, assignment, shredder, some (some root)⟩ with err | sort
  · unfold UpdateSpec.build
    rw [hsort]
    rfl
  · obtain ⟨rfl, rfl, rfl, rfl, rfl⟩ := UpdateSpec.sort_tree hsort
    rw [UpdateSpec.build, hsort]

/-- An update without a root for its tree needs no arena. -/
theorem UpdateSpec.build_rootless (matrix sparseMatrix merge assignment shredder) :
    ∃ err, ∀ resolve,
      UpdateSpec.build resolve ⟨matrix, sparseMatrix, merge, assignment, shredder, some none⟩
        = .of (.error err) := by
  rcases hsort : UpdateSpec.sort
    ⟨matrix, sparseMatrix, merge, assignment, shredder, some none⟩ with err | sort
  · refine ⟨err, fun resolve => ?_⟩
    unfold UpdateSpec.build
    rw [hsort]
    rfl
  · obtain ⟨rfl, rfl, rfl, rfl, rfl⟩ := UpdateSpec.sort_tree hsort
    exact ⟨.invalidModel .treeWithoutRoot, fun resolve => by unfold UpdateSpec.build; rfl⟩

theorem UpdateSpec.build_tree {matrix sparseMatrix merge assignment shredder root update} :
    UpdateSpec.build resolve ⟨matrix, sparseMatrix, merge, assignment, shredder, some root⟩ s
        = .ok update s' ↔
      (matrix.isNone ∧ sparseMatrix.isNone ∧ merge.isNone ∧ assignment.isNone ∧ shredder.isNone) ∧
        ∃ n node, root = some n ∧ n.build resolve s = .ok node s' ∧ update = .tree node := by
  rcases root with _ | n
  · obtain ⟨err, h⟩ := UpdateSpec.build_rootless matrix sparseMatrix merge assignment shredder
    rw [h, Build.of_eq_ok]
    simp
  rw [UpdateSpec.build_root, Build.bind_eq_ok]
  constructor
  · rintro ⟨sort, t, hk, h⟩
    obtain ⟨hsort, rfl⟩ := Build.of_eq_ok.1 hk
    obtain ⟨rfl, rfl, rfl, rfl, rfl⟩ := UpdateSpec.sort_tree hsort
    obtain ⟨node, t, hn, h⟩ := Build.bind_eq_ok.1 h
    obtain ⟨rfl, rfl⟩ := Build.pure_eq_ok.1 h
    exact ⟨⟨rfl, rfl, rfl, rfl, rfl⟩, n, node, rfl, hn, rfl⟩
  · rintro ⟨⟨hm, hs, he, ha, hd⟩, n', node, hroot, hn, rfl⟩
    cases hroot
    simp only [Option.isNone_iff_eq_none] at hm hs he ha hd
    subst hm hs he ha hd
    exact ⟨.tree, s, rfl, Build.bind_eq_ok.2 ⟨node, s', hn, rfl⟩⟩

end

/-! ## Following a build -/

/-- While `S` relates two arenas for the references still to come, the second way of resolving
succeeds wherever the first does, with the same node. -/
def Follows (resolve resolve' : UInt32 → Build Node) (S : List UInt32 → Arena → Arena → Prop) :
    Prop :=
  ∀ i rest s a node s', S (i :: rest) s a → resolve i s = .ok node s' →
    ∃ a', resolve' i a = .ok node a' ∧ S rest s' a'

section

variable {resolve resolve' : UInt32 → Build Node} {S : List UInt32 → Arena → Arena → Prop}

mutual

theorem NodeSpec.build_follows (hr : Follows resolve resolve' S) :
    ∀ (n : NodeSpec) {rest s a s' node}, S (n.references ++ rest) s a →
      n.build resolve s = .ok node s' → ∃ a', n.build resolve' a = .ok node a' ∧ S rest s' a'
  | ⟨name, index, debugInfo, none, population, stop⟩, rest, s, a, s', node, hs, h => by
    obtain ⟨r, hleaf⟩ := NodeSpec.build_leaf name index debugInfo population stop
    rw [hleaf] at h
    obtain ⟨hnode, rfl⟩ := Build.of_eq_ok.1 h
    exact ⟨a, by rw [hleaf, Build.of_eq_ok]; exact ⟨hnode, rfl⟩, hs⟩
  | ⟨name, index, debugInfo, some b, population, stop⟩, rest, s, a, s', node, hs, h => by
    obtain ⟨halone, kind, hb, rfl⟩ := NodeSpec.build_branch.1 h
    obtain ⟨a', hb', hs'⟩ := BranchSpec.build_follows hr b hs hb
    exact ⟨a', NodeSpec.build_branch.2 ⟨halone, kind, hb', rfl⟩, hs'⟩

theorem BranchSpec.build_follows (hr : Follows resolve resolve' S) :
    ∀ (b : BranchSpec) {rest s a s' kind}, S (b.references ++ rest) s a →
      b.build resolve s = .ok kind s' → ∃ a', b.build resolve' a = .ok kind a' ∧ S rest s' a'
  | ⟨edges, seed, none, multiplicity⟩, rest, s, a, s', kind, hs, h => by
    obtain ⟨he, children, t, selector, action, hc, hsel, ha, rfl⟩ := BranchSpec.build_eq_ok.1 h
    obtain ⟨a', hc', hs'⟩ := buildChildren_follows hr edges hs hc
    rcases multiplicity with _ | m
    · obtain ⟨rfl, rfl⟩ := Build.pure_eq_ok.1 ha
      exact ⟨a', BranchSpec.build_eq_ok.2
        ⟨he, children, a', selector, .none, hc', hsel, rfl, rfl⟩, hs'⟩
    · obtain ⟨built, t, hk, ha⟩ := Build.bind_eq_ok.1 ha
      obtain ⟨hm, rfl⟩ := Build.of_eq_ok.1 hk
      obtain ⟨rfl, rfl⟩ := Build.pure_eq_ok.1 ha
      exact ⟨a', BranchSpec.build_eq_ok.2
        ⟨he, children, a', selector, .multiplicity built, hc', hsel,
          Build.bind_eq_ok.2 ⟨built, a', Build.of_eq_ok.2 ⟨hm, rfl⟩, rfl⟩, rfl⟩, hs'⟩
  | ⟨edges, seed, some us, multiplicity⟩, rest, s, a, s', kind, hs, h => by
    obtain ⟨he, children, t, selector, action, hc, hsel, ha, rfl⟩ := BranchSpec.build_eq_ok.1 h
    rw [BranchSpec.references, List.append_assoc] at hs
    obtain ⟨a', hc', hs'⟩ := buildChildren_follows hr edges hs hc
    rcases multiplicity with _ | m
    · obtain ⟨updates, t, hu, ha⟩ := Build.bind_eq_ok.1 ha
      obtain ⟨rfl, rfl⟩ := Build.pure_eq_ok.1 ha
      obtain ⟨a'', hu', hs''⟩ := buildUpdates_follows hr us hs' hu
      exact ⟨a'', BranchSpec.build_eq_ok.2 ⟨he, children, a', selector, .updates updates, hc', hsel,
        Build.bind_eq_ok.2 ⟨updates, a'', hu', rfl⟩, rfl⟩, hs''⟩
    · exact (Build.fail_ne_ok ha).elim

theorem buildChildren_follows (hr : Follows resolve resolve' S) :
    ∀ (es : List EdgeSpec) {rest s a s' children}, S (edgesReferences es ++ rest) s a →
      buildChildren resolve es s = .ok children s' →
      ∃ a', buildChildren resolve' es a = .ok children a' ∧ S rest s' a'
  | [], rest, s, a, s', children, hs, h => by
    obtain ⟨rfl, rfl⟩ := Build.pure_eq_ok.1 h
    exact ⟨a, rfl, hs⟩
  | e :: es, rest, s, a, s', children, hs, h => by
    rw [edgesReferences, List.append_assoc] at hs
    obtain ⟨child, t, others, hc, ho, rfl⟩ := buildChildren_cons.1 h
    obtain ⟨a', hc', hs'⟩ := EdgeSpec.buildChild_follows hr e hs hc
    obtain ⟨a'', ho', hs''⟩ := buildChildren_follows hr es hs' ho
    exact ⟨a'', buildChildren_cons.2 ⟨child, a', others, hc', ho', rfl⟩, hs''⟩

theorem EdgeSpec.buildChild_follows (hr : Follows resolve resolve' S) :
    ∀ (e : EdgeSpec) {rest s a s' child}, S (e.references ++ rest) s a →
      e.buildChild resolve s = .ok child s' →
      ∃ a', e.buildChild resolve' a = .ok child a' ∧ S rest s' a'
  | ⟨none, some i, _, _⟩, rest, s, a, s', child, hs, h => hr i rest s a child s' hs h
  | ⟨some n, none, _, _⟩, _, _, _, _, _, hs, h => NodeSpec.build_follows hr n hs h
  | ⟨none, none, _, _⟩, _, _, _, _, _, _, h => (Build.fail_ne_ok h).elim
  | ⟨some _, some _, _, _⟩, _, _, _, _, _, _, h => (Build.fail_ne_ok h).elim

theorem buildUpdates_follows (hr : Follows resolve resolve' S) :
    ∀ (us : List UpdateSpec) {rest s a s' updates}, S (updatesReferences us ++ rest) s a →
      buildUpdates resolve us s = .ok updates s' →
      ∃ a', buildUpdates resolve' us a = .ok updates a' ∧ S rest s' a'
  | [], rest, s, a, s', updates, hs, h => by
    obtain ⟨rfl, rfl⟩ := Build.pure_eq_ok.1 h
    exact ⟨a, rfl, hs⟩
  | u :: us, rest, s, a, s', updates, hs, h => by
    rw [updatesReferences, List.append_assoc] at hs
    obtain ⟨update, t, others, hu, ho, rfl⟩ := buildUpdates_cons.1 h
    obtain ⟨a', hu', hs'⟩ := UpdateSpec.build_follows hr u hs hu
    obtain ⟨a'', ho', hs''⟩ := buildUpdates_follows hr us hs' ho
    exact ⟨a'', buildUpdates_cons.2 ⟨update, a', others, hu', ho', rfl⟩, hs''⟩

theorem UpdateSpec.build_follows (hr : Follows resolve resolve' S) :
    ∀ (u : UpdateSpec) {rest s a s' update}, S (u.references ++ rest) s a →
      u.build resolve s = .ok update s' → ∃ a', u.build resolve' a = .ok update a' ∧ S rest s' a'
  | ⟨matrix, sparseMatrix, merge, assignment, shredder, none⟩, rest, s, a, s', update, hs, h => by
    obtain ⟨r, hleaf⟩ := UpdateSpec.build_leaf matrix sparseMatrix merge assignment shredder
    rw [hleaf] at h
    obtain ⟨hupdate, rfl⟩ := Build.of_eq_ok.1 h
    exact ⟨a, by rw [hleaf, Build.of_eq_ok]; exact ⟨hupdate, rfl⟩, hs⟩
  | ⟨_, _, _, _, _, some none⟩, rest, s, a, s', update, hs, h => by
    obtain ⟨-, n, node, hn, -⟩ := UpdateSpec.build_tree.1 h
    cases hn
  | ⟨_, _, _, _, _, some (some root)⟩, rest, s, a, s', update, hs, h => by
    obtain ⟨halone, n, node, hroot, hn, rfl⟩ := UpdateSpec.build_tree.1 h
    cases hroot
    obtain ⟨a', hn', hs'⟩ := NodeSpec.build_follows hr root hs hn
    exact ⟨a', UpdateSpec.build_tree.2 ⟨halone, root, node, rfl, hn', rfl⟩, hs'⟩

end

/-- One way of resolving follows another through all references of a node. -/
theorem NodeSpec.build_follow (hr : Follows resolve resolve' S) {n : NodeSpec} {s a s' : Arena}
    {node : Node} (hs : S n.references s a) (h : n.build resolve s = .ok node s') :
    ∃ a', n.build resolve' a = .ok node a' ∧ S [] s' a' := by
  rw [← List.append_nil n.references] at hs
  exact NodeSpec.build_follows hr n hs h

theorem buildUpdates_follow (hr : Follows resolve resolve' S) {us : List UpdateSpec}
    {s a s' : Arena} {updates : List Update} (hs : S (updatesReferences us) s a)
    (h : buildUpdates resolve us s = .ok updates s') :
    ∃ a', buildUpdates resolve' us a = .ok updates a' ∧ S [] s' a' := by
  rw [← List.append_nil (updatesReferences us)] at hs
  exact buildUpdates_follows hr us hs h

/-- Every reference of a node that is built is resolved. -/
theorem NodeSpec.resolve_of_build {n : NodeSpec} {s s' : Arena} {node : Node}
    (h : n.build resolve s = .ok node s') :
    ∀ i ∈ n.references, ∃ t child t', resolve i t = .ok child t' := by
  have hr : Follows resolve resolve fun rest s a => s = a ∧
      ∃ done, n.references = done ++ rest ∧
        ∀ i ∈ done, ∃ t child t', resolve i t = .ok child t' := by
    rintro i rest s _ child s' ⟨rfl, done, heq, hdone⟩ hi
    refine ⟨s', hi, rfl, done ++ [i], by simp [heq], ?_⟩
    intro j hj
    rcases List.mem_append.1 hj with hj | hj
    · exact hdone j hj
    · exact List.mem_singleton.1 hj ▸ ⟨s, child, s', hi⟩
  obtain ⟨a, -, -, done, heq, hdone⟩ :=
    NodeSpec.build_follow hr ⟨rfl, [], rfl, by simp⟩ h
  rw [heq, List.append_nil]
  exact hdone

end

mutual

/-- No branch of a node, at any depth and in trees of updates, both holds a child and refers to
one. -/
def NodeSpec.Definite : NodeSpec → Prop
  | ⟨_, _, _, none, _, _⟩ => True
  | ⟨_, _, _, some b, _, _⟩ => b.Definite

def BranchSpec.Definite : BranchSpec → Prop
  | ⟨edges, _, none, _⟩ => edgesDefinite edges
  | ⟨edges, _, some updates, _⟩ => edgesDefinite edges ∧ updatesDefinite updates

def edgesDefinite : List EdgeSpec → Prop
  | [] => True
  | e :: rest => e.Definite ∧ edgesDefinite rest

def EdgeSpec.Definite : EdgeSpec → Prop
  | ⟨some _, some _, _, _⟩ => False
  | ⟨some child, none, _, _⟩ => child.Definite
  | ⟨none, _, _, _⟩ => True

def updatesDefinite : List UpdateSpec → Prop
  | [] => True
  | u :: rest => u.Definite ∧ updatesDefinite rest

def UpdateSpec.Definite : UpdateSpec → Prop
  | ⟨_, _, _, _, _, some (some root)⟩ => root.Definite
  | _ => True

end

section

variable {resolve : UInt32 → Build Node}

mutual

theorem NodeSpec.definite_of_build :
    ∀ (n : NodeSpec) {s s' node}, n.build resolve s = .ok node s' → n.Definite
  | ⟨_, _, _, none, _, _⟩, _, _, _, _ => trivial
  | ⟨_, _, _, some b, _, _⟩, _, _, _, h => by
    obtain ⟨-, kind, hb, -⟩ := NodeSpec.build_branch.1 h
    exact BranchSpec.definite_of_build b hb

theorem BranchSpec.definite_of_build :
    ∀ (b : BranchSpec) {s s' kind}, b.build resolve s = .ok kind s' → b.Definite
  | ⟨edges, _, none, _⟩, _, _, _, h => by
    obtain ⟨-, children, t, selector, action, hc, -⟩ := BranchSpec.build_eq_ok.1 h
    exact edgesDefinite_of_build edges hc
  | ⟨edges, _, some us, none⟩, _, _, _, h => by
    obtain ⟨-, children, t, selector, action, hc, -, ha, -⟩ := BranchSpec.build_eq_ok.1 h
    obtain ⟨updates, t, hu, -⟩ := Build.bind_eq_ok.1 ha
    exact ⟨edgesDefinite_of_build edges hc, updatesDefinite_of_build us hu⟩
  | ⟨_, _, some _, some _⟩, _, _, _, h => by
    obtain ⟨-, children, t, selector, action, -, -, ha, -⟩ := BranchSpec.build_eq_ok.1 h
    exact (Build.fail_ne_ok ha).elim

theorem edgesDefinite_of_build :
    ∀ (es : List EdgeSpec) {s s' children}, buildChildren resolve es s = .ok children s' →
      edgesDefinite es
  | [], _, _, _, _ => trivial
  | e :: es, _, _, _, h => by
    obtain ⟨child, t, others, hc, ho, -⟩ := buildChildren_cons.1 h
    exact ⟨EdgeSpec.definite_of_build e hc, edgesDefinite_of_build es ho⟩

theorem EdgeSpec.definite_of_build :
    ∀ (e : EdgeSpec) {s s' child}, e.buildChild resolve s = .ok child s' → e.Definite
  | ⟨none, _, _, _⟩, _, _, _, _ => trivial
  | ⟨some n, none, _, _⟩, _, _, _, h => NodeSpec.definite_of_build n h
  | ⟨some _, some _, _, _⟩, _, _, _, h => (Build.fail_ne_ok h).elim

theorem updatesDefinite_of_build :
    ∀ (us : List UpdateSpec) {s s' updates}, buildUpdates resolve us s = .ok updates s' →
      updatesDefinite us
  | [], _, _, _, _ => trivial
  | u :: us, _, _, _, h => by
    obtain ⟨update, t, others, hu, ho, -⟩ := buildUpdates_cons.1 h
    exact ⟨UpdateSpec.definite_of_build u hu, updatesDefinite_of_build us ho⟩

theorem UpdateSpec.definite_of_build :
    ∀ (u : UpdateSpec) {s s' update}, u.build resolve s = .ok update s' → u.Definite
  | ⟨_, _, _, _, _, none⟩, _, _, _, _ => trivial
  | ⟨_, _, _, _, _, some none⟩, _, _, _, _ => trivial
  | ⟨_, _, _, _, _, some (some root)⟩, _, _, _, h => by
    obtain ⟨-, n, node, hroot, hn, -⟩ := UpdateSpec.build_tree.1 h
    cases hroot
    exact NodeSpec.definite_of_build root hn

end

end

end VirtualPeople
