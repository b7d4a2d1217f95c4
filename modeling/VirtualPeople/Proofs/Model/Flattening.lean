import VirtualPeople.Model.Flatten
import VirtualPeople.Proofs.Model.ListedTree
import VirtualPeople.Proofs.Outcome
import Mathlib.Algebra.Group.Nat.Defs

/-!
# Flattening a tree

Flattening numbers the nodes of a list by their places, refers once to every node but the last, and
keeps the references in trees of updates, so a flattened list is attached only if there are none
(`NodeSpec.flattenOnto_balanced`). Following the references of a flattened node builds what the
node of the tree builds, apart from indexes, which labeling does not look at
(`Node.flatten_preserves`).
-/

namespace VirtualPeople

mutual

/-- A tree without the indexes of its nodes, but for those in trees of updates. -/
def Node.plain : Node → Node
  | ⟨name, _, fromBuilder, kind⟩ => ⟨name, none, fromBuilder, kind.plain⟩

def NodeKind.plain : NodeKind → NodeKind
  | .branch children selector action => .branch (plainAll children) selector action
  | .population leaf => .population leaf
  | .stop => .stop

def plainAll : List Node → List Node
  | [] => []
  | node :: rest => node.plain :: plainAll rest

end

mutual

theorem Node.plain_apply : ∀ node : Node, node.plain.apply = node.apply
  | ⟨name, index, fromBuilder, kind⟩ => by
    rw [Node.plain, Node.apply, Node.apply, NodeKind.plain_apply kind]

theorem NodeKind.plain_apply : ∀ kind : NodeKind, kind.plain.apply = kind.apply
  | .branch children selector action => by
    have h : applyAt (plainAll children) = applyAt children := funext (plainAll_applyAt children)
    rw [NodeKind.plain, NodeKind.apply, NodeKind.apply, h]
  | .population _ => rfl
  | .stop => rfl

theorem plainAll_applyAt : ∀ (children : List Node) (i : Nat),
    applyAt (plainAll children) i = applyAt children i
  | [], i => rfl
  | node :: rest, 0 => by
    rw [plainAll, applyAt, applyAt, Node.plain_apply node]
  | node :: rest, i + 1 => by
    rw [plainAll, applyAt, applyAt, plainAll_applyAt rest i]

end

section

variable {done out : List NodeSpec} {i : UInt32}

theorem numbered_eq_ok {node : UInt32 → NodeSpec} :
    NodeSpec.flattenOnto.numbered done node = .ok (out, i) ↔
      done.length < UInt32.size ∧ i = .ofNat done.length ∧ out = node i :: done := by
  rw [NodeSpec.flattenOnto.numbered]
  split_ifs with h
  · simp only [pure, Except.pure, Except.ok.injEq, Prod.mk.injEq, h, true_and]
    constructor
    · rintro ⟨rfl, rfl⟩
      exact ⟨rfl, rfl⟩
    · rintro ⟨rfl, rfl⟩
      exact ⟨rfl, rfl⟩
  · simp [h, invalidModel]

theorem flattenOnto_leaf {name index debugInfo population stop} :
    NodeSpec.flattenOnto done ⟨name, index, debugInfo, none, population, stop⟩ = .ok (out, i) ↔
      done.length < UInt32.size ∧ i = .ofNat done.length ∧
        out = ⟨name, some i, debugInfo, none, population, stop⟩ :: done := by
  rw [NodeSpec.flattenOnto, numbered_eq_ok]

theorem flattenOnto_branch {name index debugInfo edges seed updates multiplicity population stop} :
    NodeSpec.flattenOnto done
        ⟨name, index, debugInfo, some ⟨edges, seed, updates, multiplicity⟩, population, stop⟩
      = .ok (out, i) ↔
      ∃ mid es, flattenEdges done edges = .ok (mid, es) ∧ mid.length < UInt32.size ∧
        i = .ofNat mid.length ∧
        out = ⟨name, some i, debugInfo, some ⟨es, seed, updates, multiplicity⟩, population, stop⟩
          :: mid := by
  simp only [NodeSpec.flattenOnto, BranchSpec.flattenOnto, bind_eq_ok, pure_eq_ok, numbered_eq_ok,
    Prod.exists, Prod.mk.injEq]
  constructor
  · rintro ⟨mid, b, ⟨mid', es, hes, rfl, rfl⟩, hlt, rfl, rfl⟩
    exact ⟨mid', es, hes, hlt, rfl, rfl⟩
  · rintro ⟨mid, es, hes, hlt, rfl, rfl⟩
    exact ⟨mid, _, ⟨mid, es, hes, rfl, rfl⟩, hlt, rfl, rfl⟩

theorem flattenEdges_cons {e : EdgeSpec} {edges es : List EdgeSpec} :
    flattenEdges done (e :: edges) = .ok (out, es) ↔
      ∃ mid e' es', e.flattenOnto done = .ok (mid, e') ∧ flattenEdges mid edges = .ok (out, es') ∧
        es = e' :: es' := by
  simp only [flattenEdges, bind_eq_ok, pure_eq_ok, Prod.exists, Prod.mk.injEq]
  constructor
  · rintro ⟨mid, e', he, out', es', hes, rfl, rfl⟩
    exact ⟨mid, e', es', he, hes, rfl⟩
  · rintro ⟨mid, e', es', he, hes, rfl⟩
    exact ⟨mid, e', he, out, es', hes, rfl, rfl⟩

theorem flattenEdge_child {child : NodeSpec} {chance condition e} :
    EdgeSpec.flattenOnto done ⟨some child, none, chance, condition⟩ = .ok (out, e) ↔
      ∃ i, child.flattenOnto done = .ok (out, i) ∧ e = ⟨none, some i, chance, condition⟩ := by
  simp only [EdgeSpec.flattenOnto, bind_eq_ok, pure_eq_ok, Prod.exists, Prod.mk.injEq]
  constructor
  · rintro ⟨out', i, h, rfl, rfl⟩
    exact ⟨i, h, rfl⟩
  · rintro ⟨i, h, rfl⟩
    exact ⟨out, i, h, rfl, rfl⟩

end

/-! ## Places and references -/

/-- The nodes of a list, the last first, have their places as indexes. -/
def Numbered (nodes : List NodeSpec) : Prop :=
  nodes.reverse.map (·.index) = (List.range nodes.length).map fun k => some (UInt32.ofNat k)

theorem Numbered.cons {done : List NodeSpec} {n : NodeSpec} (h : Numbered done)
    (hi : n.index = some (.ofNat done.length)) : Numbered (n :: done) := by
  unfold Numbered at h ⊢
  rw [List.reverse_cons, List.map_append, h, List.length_cons, List.range_succ, List.map_append,
    List.map_singleton, List.map_singleton, hi]

/-- While nodes are added to a list, the indexes made for them are those of the nodes but for what
the nodes refer to, other than what they referred to before. -/
def Balanced (done out : List NodeSpec) (made held : List UInt32) : Prop :=
  ∀ a, (out.flatMap (·.references)).count a + made.count a + (listedIndexes done).count a
    = (listedIndexes out).count a + held.count a + (done.flatMap (·.references)).count a

theorem Balanced.append {done mid out : List NodeSpec} {made made' held held' : List UInt32}
    (h : Balanced done mid made held) (h' : Balanced mid out made' held') :
    Balanced done out (made ++ made') (held ++ held') := by
  intro a
  have := h a
  have := h' a
  rw [List.count_append, List.count_append]
  omega

/-- A node put behind others, that refers to what is made for them and to what it holds. -/
theorem Balanced.cons {done mid : List NodeSpec} {made held own : List UInt32} {n : NodeSpec}
    {i : UInt32} (h : Balanced done mid made held) (hi : n.index = some i)
    (hr : n.references = made ++ own) : Balanced done (n :: mid) [i] (held ++ own) := by
  intro a
  have := h a
  rw [listedIndexes_cons hi, List.flatMap_cons, hr, List.count_cons (l := listedIndexes mid)]
  simp only [List.count_append, List.count_singleton]
  omega

mutual

theorem NodeSpec.flattenOnto_balanced :
    ∀ (n : NodeSpec) {done out i}, n.flattenOnto done = .ok (out, i) →
      Balanced done out [i] n.references ∧ done <:+ out ∧ (Numbered done → Numbered out)
  | ⟨name, index, debugInfo, none, population, stop⟩, done, out, i, h => by
    obtain ⟨-, rfl, rfl⟩ := flattenOnto_leaf.1 h
    have hrefl : Balanced done done [] [] := fun a => by omega
    exact ⟨hrefl.cons (n := ⟨name, some _, debugInfo, none, population, stop⟩) rfl rfl,
      List.suffix_cons _ done, fun hn => hn.cons rfl⟩
  | ⟨name, index, debugInfo, some ⟨edges, seed, none, multiplicity⟩, population, stop⟩,
      done, out, i, h => by
    obtain ⟨mid, es, hes, -, rfl, rfl⟩ := flattenOnto_branch.1 h
    obtain ⟨hb, hs, hn⟩ := flattenEdges_balanced edges hes
    have hc := hb.cons (n := ⟨name, some (.ofNat mid.length), debugInfo,
      some ⟨es, seed, none, multiplicity⟩, population, stop⟩) rfl (List.append_nil _).symm
    rw [List.append_nil] at hc
    exact ⟨hc, hs.trans (List.suffix_cons _ mid), fun hd => (hn hd).cons rfl⟩
  | ⟨name, index, debugInfo, some ⟨edges, seed, some us, multiplicity⟩, population, stop⟩,
      done, out, i, h => by
    obtain ⟨mid, es, hes, -, rfl, rfl⟩ := flattenOnto_branch.1 h
    obtain ⟨hb, hs, hn⟩ := flattenEdges_balanced edges hes
    exact ⟨hb.cons rfl rfl, hs.trans (List.suffix_cons _ mid), fun hd => (hn hd).cons rfl⟩

theorem flattenEdges_balanced :
    ∀ (edges : List EdgeSpec) {done out es}, flattenEdges done edges = .ok (out, es) →
      Balanced done out (edgesReferences es) (edgesReferences edges) ∧ done <:+ out ∧
        (Numbered done → Numbered out)
  | [], done, out, es, h => by
    cases h
    exact ⟨fun a => by omega, List.suffix_refl done, id⟩
  | e :: edges, done, out, es, h => by
    obtain ⟨mid, e', es', he, hes, rfl⟩ := flattenEdges_cons.1 h
    obtain ⟨hb, hs, hn⟩ := EdgeSpec.flattenOnto_balanced e he
    obtain ⟨hb', hs', hn'⟩ := flattenEdges_balanced edges hes
    exact ⟨hb.append hb', hs.trans hs', hn' ∘ hn⟩

theorem EdgeSpec.flattenOnto_balanced :
    ∀ (e : EdgeSpec) {done out e'}, e.flattenOnto done = .ok (out, e') →
      Balanced done out e'.references e.references ∧ done <:+ out ∧ (Numbered done → Numbered out)
  | ⟨some child, none, chance, condition⟩, done, out, e', h => by
    obtain ⟨i, hi, rfl⟩ := flattenEdge_child.1 h
    exact NodeSpec.flattenOnto_balanced child hi
  | ⟨none, none, _, _⟩, _, _, _, h => (invalidModel_ne_ok h).elim
  | ⟨_, some _, _, _⟩, _, _, _, h => (invalidModel_ne_ok h).elim

end

theorem flattenOnto_last (n : NodeSpec) {done out : List NodeSpec} {i : UInt32}
    (h : n.flattenOnto done = .ok (out, i)) :
    done.length < out.length ∧ out.length ≤ UInt32.size ∧ i ∈ listedIndexes out := by
  rcases n with ⟨name, index, debugInfo, _ | ⟨edges, seed, updates, multiplicity⟩, population, stop⟩
  · obtain ⟨hl, rfl, rfl⟩ := flattenOnto_leaf.1 h
    exact ⟨Nat.lt_succ_self _, hl, List.mem_cons_self⟩
  · obtain ⟨mid, es, hes, hl, rfl, rfl⟩ := flattenOnto_branch.1 h
    exact ⟨Nat.lt_succ_of_le (flattenEdges_balanced edges hes).2.1.length_le, hl,
      List.mem_cons_self⟩

/-- Places below `2 ^ 32` differ as indexes. -/
theorem Numbered.listedIndexes {nodes : List NodeSpec} (h : Numbered nodes) :
    listedIndexes nodes.reverse = (List.range nodes.length).map UInt32.ofNat := by
  have hmap : VirtualPeople.listedIndexes nodes.reverse
      = (nodes.reverse.map (·.index)).filterMap id := by
    rw [List.filterMap_map]
    rfl
  rw [hmap, h, List.filterMap_map, ← List.filterMap_eq_map]
  rfl

theorem Numbered.nodup {nodes : List NodeSpec} (h : Numbered nodes)
    (hl : nodes.length ≤ UInt32.size) : (VirtualPeople.listedIndexes nodes.reverse).Nodup := by
  rw [h.listedIndexes]
  refine List.Nodup.map_on (fun a ha b hb heq => ?_) List.nodup_range
  rw [List.mem_range] at ha hb
  have h := congrArg UInt32.toNat heq
  rwa [UInt32.toNat_ofNat_of_lt' (by omega), UInt32.toNat_ofNat_of_lt' (by omega)] at h

theorem Numbered.isSome {nodes : List NodeSpec} (h : Numbered nodes) :
    ∀ n ∈ nodes.reverse, n.index.isSome := by
  intro n hn
  have hmem : n.index ∈ nodes.reverse.map (·.index) := List.mem_map_of_mem hn
  rw [h] at hmem
  obtain ⟨k, -, hk⟩ := List.mem_map.1 hmem
  rw [← hk]
  rfl

section

variable {resolve : UInt32 → Build Node}

mutual

theorem NodeSpec.flattenOnto_of_build :
    ∀ (n : NodeSpec) {s s' node}, n.build resolve s = .ok node s' → n.references = [] →
      ∀ done : List NodeSpec, done.length + n.size ≤ UInt32.size →
        ∃ out i, n.flattenOnto done = .ok (out, i) ∧ out.length ≤ done.length + n.size
  | ⟨name, index, debugInfo, none, population, stop⟩, _, _, _, _, _, done, hl => by
    rw [NodeSpec.size] at hl ⊢
    exact ⟨_, _, flattenOnto_leaf.2 ⟨by omega, rfl, rfl⟩, Nat.le_refl _⟩
  | ⟨name, index, debugInfo, some ⟨edges, seed, none, multiplicity⟩, population, stop⟩,
      _, _, _, h, hr, done, hl => by
    obtain ⟨-, kind, hb, -⟩ := NodeSpec.build_branch.1 h
    obtain ⟨-, children, t, selector, action, hc, -⟩ := BranchSpec.build_eq_ok.1 hb
    rw [NodeSpec.size, BranchSpec.size] at hl ⊢
    obtain ⟨mid, es, hes, hmid⟩ := flattenEdges_of_build edges hc hr done (by omega)
    refine ⟨_, _, flattenOnto_branch.2 ⟨mid, es, hes, by omega, rfl, rfl⟩, ?_⟩
    rw [List.length_cons]
    omega
  | ⟨name, index, debugInfo, some ⟨edges, seed, some us, multiplicity⟩, population, stop⟩,
      _, _, _, h, hr, done, hl => by
    obtain ⟨-, kind, hb, -⟩ := NodeSpec.build_branch.1 h
    obtain ⟨-, children, t, selector, action, hc, -⟩ := BranchSpec.build_eq_ok.1 hb
    rw [NodeSpec.size, BranchSpec.size] at hl ⊢
    obtain ⟨mid, es, hes, hmid⟩ :=
      flattenEdges_of_build edges hc (List.append_eq_nil_iff.1 hr).1 done (by omega)
    refine ⟨_, _, flattenOnto_branch.2 ⟨mid, es, hes, by omega, rfl, rfl⟩, ?_⟩
    rw [List.length_cons]
    omega

theorem flattenEdges_of_build :
    ∀ (edges : List EdgeSpec) {s s' children}, buildChildren resolve edges s = .ok children s' →
      edgesReferences edges = [] →
      ∀ done : List NodeSpec, done.length + edgesSize edges ≤ UInt32.size →
        ∃ out es, flattenEdges done edges = .ok (out, es) ∧
          out.length ≤ done.length + edgesSize edges
  | [], _, _, _, _, _, done, _ => ⟨done, [], rfl, Nat.le_refl _⟩
  | e :: edges, _, _, _, h, hr, done, hl => by
    obtain ⟨child, t, others, hc, ho, -⟩ := buildChildren_cons.1 h
    obtain ⟨hre, hredges⟩ := List.append_eq_nil_iff.1 hr
    rw [edgesSize] at hl ⊢
    obtain ⟨mid, e', he', hmid⟩ := EdgeSpec.flattenOnto_of_build e hc hre done (by omega)
    obtain ⟨out, es, hes, hout⟩ := flattenEdges_of_build edges ho hredges mid (by omega)
    exact ⟨out, e' :: es, flattenEdges_cons.2 ⟨mid, e', es, he', hes, rfl⟩, by omega⟩

theorem EdgeSpec.flattenOnto_of_build :
    ∀ (e : EdgeSpec) {s s' child}, e.buildChild resolve s = .ok child s' → e.references = [] →
      ∀ done : List NodeSpec, done.length + e.size ≤ UInt32.size →
        ∃ out e', e.flattenOnto done = .ok (out, e') ∧ out.length ≤ done.length + e.size
  | ⟨some n, none, _, _⟩, _, _, _, h, hr, done, hl => by
    obtain ⟨out, i, hi, hout⟩ := NodeSpec.flattenOnto_of_build n h hr done hl
    exact ⟨out, _, flattenEdge_child.2 ⟨i, hi, rfl⟩, hout⟩
  | ⟨none, none, _, _⟩, _, _, _, h, _, _, _ => (Build.fail_ne_ok h).elim
  | ⟨some _, some _, _, _⟩, _, _, _, h, _, _, _ => (Build.fail_ne_ok h).elim
  | ⟨none, some i, _, _⟩, _, _, _, _, hr, _, _ => (List.cons_ne_nil i [] hr).elim

end

end

/-- What the second way of building makes of the empty arena, the first makes too but for
indexes. -/
def Imitates (x y : Build Node) : Prop :=
  ∀ node s, y .empty = .ok node s →
    s = .empty ∧ ∃ node', x .empty = .ok node' .empty ∧ node'.plain = node.plain

def ImitatesAll (x y : Build (List Node)) : Prop :=
  ∀ children s, y .empty = .ok children s →
    s = .empty ∧
      ∃ children', x .empty = .ok children' .empty ∧ plainAll children' = plainAll children

section

variable {resolve resolve' : UInt32 → Build Node}

/-- What is done before a child is selected is built the same where it holds no references. -/
theorem buildAction_imitates {updates : Option (List UpdateSpec)}
    {multiplicity : Option MultiplicitySpec} {action : Action} {s : Arena}
    (hr : (updates.map updatesReferences).getD [] = [])
    (h : BranchSpec.buildAction resolve' updates multiplicity .empty = .ok action s) :
    s = .empty ∧
      BranchSpec.buildAction resolve updates multiplicity .empty = .ok action .empty := by
  rcases updates with _ | us <;> rcases multiplicity with _ | m
  · obtain ⟨rfl, rfl⟩ := Build.pure_eq_ok.1 h
    exact ⟨rfl, rfl⟩
  · obtain ⟨built, t, hk, h⟩ := Build.bind_eq_ok.1 h
    obtain ⟨hm, rfl⟩ := Build.of_eq_ok.1 hk
    obtain ⟨rfl, rfl⟩ := Build.pure_eq_ok.1 h
    exact ⟨rfl, Build.bind_eq_ok.2 ⟨built, .empty, Build.of_eq_ok.2 ⟨hm, rfl⟩, rfl⟩⟩
  · obtain ⟨built, t, hu, h⟩ := Build.bind_eq_ok.1 h
    obtain ⟨rfl, rfl⟩ := Build.pure_eq_ok.1 h
    have hfollows : Follows resolve' resolve fun rest s a => rest = [] ∧ s = .empty ∧ a = .empty :=
      fun i rest s a node s' hs => (List.cons_ne_nil i rest hs.1).elim
    obtain ⟨a, hu', -, rfl, rfl⟩ :=
      buildUpdates_follow hfollows ⟨hr, rfl, rfl⟩ hu
    exact ⟨rfl, Build.bind_eq_ok.2 ⟨built, .empty, hu', rfl⟩⟩
  · exact (Build.fail_ne_ok h).elim

/-- A branching node is imitated where its children are. -/
theorem Imitates.branch {edges es : List EdgeSpec} {updates : Option (List UpdateSpec)}
    {name index index' debugInfo seed multiplicity population stop}
    (hc : ImitatesAll (buildChildren resolve edges) (buildChildren resolve' es))
    (hs : edges.map EdgeSpec.selector = es.map EdgeSpec.selector)
    (hr : (updates.map updatesReferences).getD [] = []) :
    Imitates
      (NodeSpec.build resolve
        ⟨name, index, debugInfo, some ⟨edges, seed, updates, multiplicity⟩, population, stop⟩)
      (NodeSpec.build resolve'
        ⟨name, index', debugInfo, some ⟨es, seed, updates, multiplicity⟩, population, stop⟩) := by
  intro node s h
  obtain ⟨halone, kind, hb, rfl⟩ := NodeSpec.build_branch.1 h
  obtain ⟨hne, children, t, selector, action, hes, hsel, ha, rfl⟩ := BranchSpec.build_eq_ok.1 hb
  obtain ⟨rfl, children', hedges, hplain⟩ := hc children t hes
  obtain ⟨rfl, ha'⟩ := buildAction_imitates hr ha
  have hne' : edges ≠ [] := by
    rintro rfl
    exact hne (List.map_eq_nil_iff.1 hs.symm)
  rw [← BranchSpec.selector_congr seed hs] at hsel
  refine ⟨rfl, _, NodeSpec.build_branch.2 ⟨halone, _, BranchSpec.build_eq_ok.2
    ⟨hne', children', .empty, selector, action, hedges, hsel, ha', rfl⟩, rfl⟩, ?_⟩
  rw [Node.plain, Node.plain, NodeKind.plain, NodeKind.plain, hplain]

theorem Imitates.leaf {name index index' debugInfo population stop} :
    Imitates (NodeSpec.build resolve ⟨name, index, debugInfo, none, population, stop⟩)
      (NodeSpec.build resolve' ⟨name, index', debugInfo, none, population, stop⟩) := by
  intro node s h
  rcases population with _ | p
  · rcases stop with _ | u
    · rw [NodeSpec.build] at h
      obtain ⟨sort, t, hk, -⟩ := Build.bind_eq_ok.1 h
      exact (invalidModel_ne_ok (Build.of_eq_ok.1 hk).1).elim
    · rw [NodeSpec.build] at h ⊢
      obtain ⟨sort, t, hk, h⟩ := Build.bind_eq_ok.1 h
      obtain ⟨-, rfl⟩ := Build.of_eq_ok.1 hk
      obtain ⟨rfl, rfl⟩ := Build.pure_eq_ok.1 h
      exact ⟨rfl, _, Build.bind_eq_ok.2 ⟨.stop, .empty, rfl, rfl⟩, rfl⟩
  · rcases stop with _ | u
    · rw [NodeSpec.build] at h ⊢
      obtain ⟨sort, t, hk, h⟩ := Build.bind_eq_ok.1 h
      obtain ⟨-, rfl⟩ := Build.of_eq_ok.1 hk
      obtain ⟨leaf, t, hk, h⟩ := Build.bind_eq_ok.1 h
      obtain ⟨hp, rfl⟩ := Build.of_eq_ok.1 hk
      obtain ⟨rfl, rfl⟩ := Build.pure_eq_ok.1 h
      exact ⟨rfl, _, Build.bind_eq_ok.2 ⟨.population, .empty, rfl,
        Build.bind_eq_ok.2 ⟨leaf, .empty, Build.of_eq_ok.2 ⟨hp, rfl⟩, rfl⟩⟩, rfl⟩
    · rw [NodeSpec.build] at h
      obtain ⟨sort, t, hk, -⟩ := Build.bind_eq_ok.1 h
      exact (invalidModel_ne_ok (Build.of_eq_ok.1 hk).1).elim

theorem ImitatesAll.nil : ImitatesAll (buildChildren resolve []) (buildChildren resolve' []) := by
  intro children s h
  obtain ⟨rfl, rfl⟩ := Build.pure_eq_ok.1 h
  exact ⟨rfl, [], rfl, rfl⟩

theorem ImitatesAll.cons {e e' : EdgeSpec} {edges es : List EdgeSpec}
    (hc : Imitates (e.buildChild resolve) (e'.buildChild resolve'))
    (ho : ImitatesAll (buildChildren resolve edges) (buildChildren resolve' es)) :
    ImitatesAll (buildChildren resolve (e :: edges)) (buildChildren resolve' (e' :: es)) := by
  intro children s h
  obtain ⟨child, t, others, hchild, hothers, rfl⟩ := buildChildren_cons.1 h
  obtain ⟨rfl, child', hchild', hplain⟩ := hc child t hchild
  obtain ⟨rfl, others', hothers', hplains⟩ := ho others s hothers
  refine ⟨rfl, _, buildChildren_cons.2 ⟨child', .empty, others', hchild', hothers', rfl⟩, ?_⟩
  rw [plainAll, plainAll, hplain, hplains]

end

section

variable {nodes : List NodeSpec} {resolve : UInt32 → Build Node}

/-- Every node of a list that has an index is the listed node of it. -/
def Found (nodes out : List NodeSpec) : Prop :=
  ∀ n ∈ out, ∀ i, n.index = some i → listed nodes i = some n

theorem followTo_found {n : NodeSpec} {i : UInt32} (h : listed nodes i = some n) (depth : Nat) :
    followTo nodes resolve (depth + 1) i = n.build (followTo nodes resolve depth) := by
  rw [followTo, h]

theorem imitates_of_refuses (refuses : ∀ i s node s', resolve i s ≠ .ok node s') (x : Build Node)
    (i : UInt32) : Imitates x (resolve i) :=
  fun node s h => (refuses i .empty node s h).elim

mutual

/-- Following the index of a flattened node and building the node of the tree imitate each other,
the one way only within the depth; and what is followed are the indexes added to the list. -/
theorem NodeSpec.flattenOnto_imitates (refuses : ∀ i s node s', resolve i s ≠ .ok node s') :
    ∀ (n : NodeSpec) {done out : List NodeSpec} {i : UInt32} (depth : Nat),
      n.flattenOnto done = .ok (out, i) → Found nodes out → n.references = [] →
      Imitates (n.build resolve) (followTo nodes resolve depth i) ∧
        (out.length ≤ done.length + depth →
          Imitates (followTo nodes resolve depth i) (n.build resolve) ∧
            (listedIndexes out).Perm (chain nodes depth i ++ listedIndexes done))
  | n, done, out, i, 0, h, _, _ => by
    refine ⟨imitates_of_refuses refuses _ i, fun hl => ?_⟩
    have hlt := (flattenOnto_last n h).1
    omega
  | ⟨name, index, debugInfo, none, population, stop⟩, done, out, i, depth + 1, h, hfound, _ => by
    obtain ⟨-, rfl, rfl⟩ := flattenOnto_leaf.1 h
    have hi := hfound _ List.mem_cons_self _ rfl
    rw [followTo_found hi]
    refine ⟨.leaf, fun _ => ⟨.leaf, ?_⟩⟩
    rw [chain_succ hi, listedIndexes_cons rfl]
    rfl
  | ⟨name, index, debugInfo, some ⟨edges, seed, none, multiplicity⟩, population, stop⟩,
      done, out, i, depth + 1, h, hfound, hr => by
    obtain ⟨mid, es, hes, -, rfl, rfl⟩ := flattenOnto_branch.1 h
    have hi := hfound _ List.mem_cons_self _ rfl
    obtain ⟨hsel, hc, hdeep⟩ := flattenEdges_imitates refuses edges depth hes
      (fun m hm => hfound m (List.mem_cons_of_mem _ hm)) hr
    rw [followTo_found hi]
    refine ⟨.branch hc hsel.symm rfl, fun hl => ?_⟩
    rw [List.length_cons] at hl
    obtain ⟨hc', hperm⟩ := hdeep (by omega)
    refine ⟨.branch hc' hsel rfl, ?_⟩
    rw [chain_succ hi, listedIndexes_cons rfl]
    exact .cons _ hperm
  | ⟨name, index, debugInfo, some ⟨edges, seed, some us, multiplicity⟩, population, stop⟩,
      done, out, i, depth + 1, h, hfound, hr => by
    obtain ⟨mid, es, hes, -, rfl, rfl⟩ := flattenOnto_branch.1 h
    have hi := hfound _ List.mem_cons_self _ rfl
    obtain ⟨hre, hru⟩ := List.append_eq_nil_iff.1 hr
    obtain ⟨hsel, hc, hdeep⟩ := flattenEdges_imitates refuses edges depth hes
      (fun m hm => hfound m (List.mem_cons_of_mem _ hm)) hre
    rw [followTo_found hi]
    refine ⟨.branch hc hsel.symm hru, fun hl => ?_⟩
    rw [List.length_cons] at hl
    obtain ⟨hc', hperm⟩ := hdeep (by omega)
    refine ⟨.branch hc' hsel hru, ?_⟩
    rw [chain_succ hi, listedIndexes_cons rfl, NodeSpec.references, BranchSpec.references, hru,
      List.append_nil]
    exact .cons _ hperm

theorem flattenEdges_imitates (refuses : ∀ i s node s', resolve i s ≠ .ok node s') :
    ∀ (edges : List EdgeSpec) {done out : List NodeSpec} {es : List EdgeSpec} (depth : Nat),
      flattenEdges done edges = .ok (out, es) → Found nodes out → edgesReferences edges = [] →
      es.map EdgeSpec.selector = edges.map EdgeSpec.selector ∧
        ImitatesAll (buildChildren resolve edges)
          (buildChildren (followTo nodes resolve depth) es) ∧
        (out.length ≤ done.length + depth →
          ImitatesAll (buildChildren (followTo nodes resolve depth) es)
              (buildChildren resolve edges) ∧
            (listedIndexes out).Perm
              ((edgesReferences es).flatMap (chain nodes depth) ++ listedIndexes done))
  | [], done, out, es, depth, h, _, _ => by
    cases h
    exact ⟨rfl, .nil, fun _ => ⟨.nil, .refl _⟩⟩
  | e :: edges, done, out, es, depth, h, hfound, hr => by
    obtain ⟨mid, e', es', he, hes, rfl⟩ := flattenEdges_cons.1 h
    obtain ⟨hre, hredges⟩ := List.append_eq_nil_iff.1 hr
    have hsuffix := (flattenEdges_balanced edges hes).2.1
    have hsuffix' := (EdgeSpec.flattenOnto_balanced e he).2.1
    obtain ⟨hsel, hc, hdeep⟩ := EdgeSpec.flattenOnto_imitates refuses e depth he
      (fun n hn => hfound n (hsuffix.subset hn)) hre
    obtain ⟨hsels, hcs, hdeeps⟩ := flattenEdges_imitates refuses edges depth hes hfound hredges
    refine ⟨by rw [List.map_cons, List.map_cons, hsel, hsels], ImitatesAll.cons hc hcs,
      fun hl => ?_⟩
    have hmid := hsuffix.length_le
    have hdone := hsuffix'.length_le
    obtain ⟨hc', hperm⟩ := hdeep (by omega)
    obtain ⟨hcs', hperms⟩ := hdeeps (by omega)
    refine ⟨ImitatesAll.cons hc' hcs', hperms.trans ?_⟩
    rw [edgesReferences, List.flatMap_append, List.append_assoc]
    exact (hperm.append_left _).trans (List.perm_append_comm_assoc ..)

theorem EdgeSpec.flattenOnto_imitates (refuses : ∀ i s node s', resolve i s ≠ .ok node s') :
    ∀ (e : EdgeSpec) {done out : List NodeSpec} {e' : EdgeSpec} (depth : Nat),
      e.flattenOnto done = .ok (out, e') → Found nodes out → e.references = [] →
      e'.selector = e.selector ∧
        Imitates (e.buildChild resolve) (e'.buildChild (followTo nodes resolve depth)) ∧
        (out.length ≤ done.length + depth →
          Imitates (e'.buildChild (followTo nodes resolve depth)) (e.buildChild resolve) ∧
            (listedIndexes out).Perm
              (e'.references.flatMap (chain nodes depth) ++ listedIndexes done))
  | ⟨some child, none, chance, condition⟩, done, out, e', depth, h, hfound, hr => by
    obtain ⟨i, hi, rfl⟩ := flattenEdge_child.1 h
    have himitates := NodeSpec.flattenOnto_imitates refuses child depth hi hfound hr
    refine ⟨rfl, himitates.1, fun hl => ?_⟩
    obtain ⟨hc, hperm⟩ := himitates.2 hl
    refine ⟨hc, ?_⟩
    rwa [EdgeSpec.references, Option.toList_some, List.flatMap_singleton]
  | ⟨none, none, _, _⟩, _, _, _, _, h, _, _ => (invalidModel_ne_ok h).elim
  | ⟨_, some _, _, _⟩, _, _, _, _, h, _, _ => (invalidModel_ne_ok h).elim

end

end

/-! ## Flattening a whole tree -/

theorem flatten_eq_ok {root : NodeSpec} {nodes : List NodeSpec} :
    root.flatten = .ok nodes ↔
      ∃ out i, root.flattenOnto [] = .ok (out, i) ∧ nodes = out.reverse := by
  simp only [NodeSpec.flatten, bind_eq_ok, pure_eq_ok, Prod.exists]
  constructor
  · rintro ⟨out, i, h, rfl⟩
    exact ⟨out, i, h, rfl⟩
  · rintro ⟨out, i, h, rfl⟩
    exact ⟨out, i, h, rfl⟩

section

variable {root : NodeSpec} {out : List NodeSpec} {i : UInt32}

theorem listedIndexes_reverse_perm (nodes : List NodeSpec) :
    (listedIndexes nodes.reverse).Perm (listedIndexes nodes) := by
  rw [listedIndexes, List.filterMap_reverse]
  exact List.reverse_perm _

theorem references_reverse_perm (nodes : List NodeSpec) :
    (nodes.reverse.flatMap (·.references)).Perm (nodes.flatMap (·.references)) :=
  (List.reverse_perm nodes).flatMap_right _

/-- What is known of the list of a tree: its indexes are its places, and its references together
with the last place are the places and the references that the tree held. -/
theorem flattened (h : root.flattenOnto [] = .ok (out, i)) :
    (listedIndexes out.reverse).Nodup ∧ (∀ n ∈ out.reverse, n.index.isSome) ∧
      Found out.reverse out ∧ i ∈ listedIndexes out.reverse ∧
      ∀ a, (out.reverse.flatMap (·.references)).count a + [i].count a
        = (listedIndexes out.reverse).count a + root.references.count a := by
  obtain ⟨hb, -, hn⟩ := NodeSpec.flattenOnto_balanced root h
  have hnumbered : Numbered out := hn rfl
  have hd := hnumbered.nodup (flattenOnto_last root h).2.1
  refine ⟨hd, hnumbered.isSome, fun n hn j hj => listed_of_mem hj hd (List.mem_reverse.2 hn), ?_,
    fun a => ?_⟩
  · exact (listedIndexes_reverse_perm out).mem_iff.2 (flattenOnto_last root h).2.2
  · rw [(references_reverse_perm out).count_eq, (listedIndexes_reverse_perm out).count_eq]
    have := hb a
    simpa [listedIndexes] using this

namespace Node

/-- A tree that is built is flattened to a list that is built, as the same tree but for indexes. -/
theorem ofNodes_of_ofRoot {tree : Node} (hl : root.size < 2 ^ 32) (h : ofRoot root = .ok tree) :
    ∃ nodes list,
      root.flatten = .ok nodes ∧ ofNodes nodes = .ok list ∧ list.plain = tree.plain := by
  obtain ⟨s, hb⟩ := ofRoot_eq_ok.1 h
  have hr : root.references = [] := by
    refine List.eq_nil_iff_forall_not_mem.2 fun i hi => ?_
    obtain ⟨t, child, t', hres⟩ := NodeSpec.resolve_of_build hb i hi
    exact Arena.resolveTo_zero i t child t' hres
  have hsize : ([] : List NodeSpec).length + root.size ≤ UInt32.size := by
    rw [List.length_nil, Nat.zero_add]
    exact Nat.le_of_lt hl
  obtain ⟨out, i, hflat, -⟩ := NodeSpec.flattenOnto_of_build root hb hr [] hsize
  obtain ⟨hd, hsome, hfound, hi, hcount⟩ := flattened hflat
  have himitates := NodeSpec.flattenOnto_imitates Arena.resolveTo_zero root (out.length + 1) hflat
    hfound hr
  obtain ⟨hfollow, hperm⟩ := himitates.2 (by omega)
  obtain ⟨-, list, hlist, hplain⟩ := hfollow tree s hb
  obtain ⟨n, hn, hbuild⟩ := followTo_succ Arena.resolveTo_zero hlist
  obtain ⟨hmem, hni⟩ := mem_of_listed hn
  refine ⟨out.reverse, list, flatten_eq_ok.2 ⟨out, i, hflat, rfl⟩, ?_, hplain⟩
  have hattached : Attached out.reverse n := by
    refine attached_of_build Arena.resolveTo_zero hd
      (fun m hm => hsome m ((List.dropLast_sublist _).subset hm)) hmem (.inr ⟨hsome, ?_⟩) hbuild ?_
    · intro j hmemj
      have hj := hcount j
      rw [hr, List.count_nil, List.count_eq_one_of_mem hd hmemj] at hj
      rw [hni, Option.some.injEq]
      by_cases hij : i = j
      · rw [hij, List.count_singleton_self] at hj
        exact iff_of_true (List.count_eq_zero.1 (by omega)) hij
      · have hne : [i].count j = 0 := List.count_eq_zero.2 (by simpa using Ne.symm hij)
        refine iff_of_false (fun hc => ?_) hij
        rw [List.count_eq_zero.2 hc] at hj
        omega
    · rw [hni, Option.toList_some, List.singleton_append, ← chain_succ hn]
      rw [show listedIndexes [] = [] from rfl, List.append_nil] at hperm
      exact (listedIndexes_reverse_perm out).trans hperm
  exact ofNodes_of_attached hattached
    (ofRoot_eq_ok.2 ⟨_, by rw [NodeSpec.inlined_build]; exact hbuild⟩)

/-- A tree whose list is built is built itself, as the same tree but for indexes. -/
theorem ofRoot_of_ofNodes {nodes : List NodeSpec} {list : Node} (hf : root.flatten = .ok nodes)
    (h : ofNodes nodes = .ok list) : ∃ tree, ofRoot root = .ok tree ∧ tree.plain = list.plain := by
  obtain ⟨out, i, hflat, rfl⟩ := flatten_eq_ok.1 hf
  obtain ⟨hd, hsome, hfound, hi, hcount⟩ := flattened hflat
  obtain ⟨n, hattached, depth, hb⟩ := attached_of_ofNodes h
  obtain ⟨j, hj⟩ := Option.isSome_iff_exists.1 (hsome n hattached.mem)
  have hbalance (a : UInt32) : [i].count a = [j].count a + root.references.count a := by
    have hperm := hattached.indexes_perm.count_eq a
    rw [hj, Option.toList_some, List.count_append] at hperm
    have := hcount a
    omega
  obtain rfl : i = j := by
    by_contra hij
    have hj := hbalance j
    have hne : [i].count j = 0 := List.count_eq_zero.2 (by simpa using Ne.symm hij)
    rw [List.count_singleton_self] at hj
    omega
  have hr : root.references = [] := by
    refine List.eq_nil_iff_forall_not_mem.2 fun a ha => ?_
    have := hbalance a
    have := List.count_pos_iff.2 ha
    omega
  obtain ⟨s, hb⟩ := ofRoot_eq_ok.1 hb
  rw [NodeSpec.inlined_build, ← followTo_found (listed_of_mem hj hd hattached.mem)] at hb
  obtain ⟨-, tree, htree, hplain⟩ := (NodeSpec.flattenOnto_imitates Arena.resolveTo_zero root
    (depth + 1) hflat hfound hr).1 list s hb
  exact ⟨tree, ofRoot_eq_ok.2 ⟨_, htree⟩, hplain⟩

/-- Flattening preserves a tree: the tree is built if its list is, and both label alike. -/
theorem flatten_preserves (hl : root.size < 2 ^ 32) :
    ((∃ tree, ofRoot root = .ok tree) ↔
      ∃ nodes list, root.flatten = .ok nodes ∧ ofNodes nodes = .ok list) ∧
    ∀ nodes tree list, root.flatten = .ok nodes → ofRoot root = .ok tree →
      ofNodes nodes = .ok list → tree.apply = list.apply := by
  refine ⟨⟨fun ⟨tree, h⟩ => ?_, fun ⟨nodes, list, hf, h⟩ => ?_⟩, fun nodes tree list hf h h' => ?_⟩
  · obtain ⟨nodes, list, hf, hn, -⟩ := ofNodes_of_ofRoot hl h
    exact ⟨nodes, list, hf, hn⟩
  · obtain ⟨tree, ht, -⟩ := ofRoot_of_ofNodes hf h
    exact ⟨tree, ht⟩
  · obtain ⟨tree', ht, hplain⟩ := ofRoot_of_ofNodes hf h'
    rw [h] at ht
    cases ht
    rw [← Node.plain_apply tree, hplain, Node.plain_apply]

/-- Two leaves under a root, all with indexes of their own, and a tree in an update. -/
def twoLeaves : NodeSpec :=
  let leaf (index : UInt32) : NodeSpec :=
    ⟨none, some index, none, none, some ⟨[⟨0, 0⟩], none⟩, none⟩
  let always : FilterSpec := ⟨.always, none, none, []⟩
  ⟨some "root", some 7, none,
    some ⟨[⟨some (leaf 7), none, none, some always⟩, ⟨some (leaf 0), none, none, some always⟩],
      none,
      some [⟨none, none, none, none, none,
        some (some ⟨none, some 0, none, none, none, some ()⟩)⟩], none⟩,
    none, none⟩

theorem flatten_preserves_twoLeaves :
    twoLeaves.size < 2 ^ 32 ∧ ∃ tree nodes list, ofRoot twoLeaves = .ok tree ∧
      twoLeaves.flatten = .ok nodes ∧ ofNodes nodes = .ok list ∧ tree.apply = list.apply := by
  have hl : twoLeaves.size < 2 ^ 32 := by decide
  obtain ⟨hiff, hsame⟩ := flatten_preserves hl
  have hbuilt : ∃ tree, ofRoot twoLeaves = .ok tree := ⟨_, rfl⟩
  obtain ⟨nodes, list, hf, hn⟩ := hiff.1 hbuilt
  obtain ⟨tree, ht⟩ := hbuilt
  exact ⟨hl, tree, nodes, list, ht, hf, hn, hsame nodes tree list hf ht hn⟩

end Node

end

end VirtualPeople
