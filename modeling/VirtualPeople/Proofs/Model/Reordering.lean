import VirtualPeople.Proofs.Model.Flattening

/-!
# Reordering a list

A reference finds its node by index, wherever the node is listed, and the index of a root that
nothing refers to is never looked up. So two lists of the same nodes that differ in their order and
in the index of the root are attached alike (`Attached.reindexed`) and followed alike
(`followTo_congr`).
-/

namespace VirtualPeople

namespace NodeSpec

/-- A node under another index, or under none. -/
def withIndex (index : Option UInt32) (n : NodeSpec) : NodeSpec := { n with index := index }

variable (x : Option UInt32) (n : NodeSpec)

@[simp]
theorem withIndex_index : (n.withIndex x).index = x := rfl

@[simp]
theorem withIndex_references : (n.withIndex x).references = n.references := by
  rcases n with ⟨_, _, _, _ | b, _, _⟩ <;> rfl

@[simp]
theorem withIndex_definite : (n.withIndex x).Definite ↔ n.Definite := by
  rcases n with ⟨_, _, _, _ | b, _, _⟩ <;> rfl

theorem withIndex_withIndex (y : Option UInt32) :
    (n.withIndex x).withIndex y = n.withIndex y := rfl

variable {x n}

theorem sort_withIndex {sort : NodeSort} (h : n.sort = .ok sort) :
    (n.withIndex x).sort = .ok sort := by
  rcases n with ⟨_, _, _, _ | b, _ | p, _ | t⟩ <;>
    simp only [NodeSpec.sort, invalidModel_ne_ok] at h <;> exact h

/-- The index of a node is handed on to what is built of it, and nothing else depends on it. -/
theorem build_withIndex {resolve : UInt32 → Build Node} {s s' : Arena} {node : Node}
    (h : n.build resolve s = .ok node s') :
    (n.withIndex x).build resolve s = .ok { node with index := x } s' := by
  rcases n with ⟨name, index, debugInfo, _ | b, population, stop⟩
  · simp only [withIndex]
    rcases population with _ | p <;> rw [NodeSpec.build, Build.bind_eq_ok] at h ⊢
    · obtain ⟨sort, t, hk, h⟩ := h
      obtain ⟨hsort, rfl⟩ := Build.of_eq_ok.1 hk
      obtain ⟨rfl, rfl⟩ := Build.pure_eq_ok.1 h
      exact ⟨sort, s, Build.of_eq_ok.2 ⟨sort_withIndex hsort, rfl⟩, rfl⟩
    · obtain ⟨sort, t, hk, h⟩ := h
      obtain ⟨hsort, rfl⟩ := Build.of_eq_ok.1 hk
      obtain ⟨leaf, t, hp, h⟩ := Build.bind_eq_ok.1 h
      obtain ⟨rfl, rfl⟩ := Build.pure_eq_ok.1 h
      exact ⟨sort, s, Build.of_eq_ok.2 ⟨sort_withIndex hsort, rfl⟩,
        Build.bind_eq_ok.2 ⟨leaf, t, hp, rfl⟩⟩
  · obtain ⟨halone, kind, hb, rfl⟩ := NodeSpec.build_branch.1 h
    exact NodeSpec.build_branch.2 ⟨halone, kind, hb, rfl⟩

/-- A node is built alike where its own references resolve alike. -/
theorem build_within {resolve resolve' : UInt32 → Build Node} {s s' : Arena} {node : Node}
    (hr : ∀ i ∈ n.references, ∀ t child t', resolve i t = .ok child t' →
      resolve' i t = .ok child t')
    (h : n.build resolve s = .ok node s') : n.build resolve' s = .ok node s' := by
  have hfollows : Follows resolve resolve' fun rest s a => s = a ∧ rest ⊆ n.references := by
    rintro i rest s _ child s' ⟨rfl, hsub⟩ hi
    exact ⟨s', hr i (hsub List.mem_cons_self) s child s' hi, rfl,
      fun j hj => hsub (List.mem_cons_of_mem i hj)⟩
  obtain ⟨a, hb, rfl, -⟩ := NodeSpec.build_follow hfollows ⟨rfl, List.Subset.refl _⟩ h
  exact hb

end NodeSpec

section

variable {nodes nodes' : List NodeSpec}

/-- What is listed for the references of one list is listed for them by the other. -/
def ResolvedAlike (nodes nodes' : List NodeSpec) : Prop :=
  ∀ j ∈ nodes.flatMap (·.references), listed nodes j = listed nodes' j

/-- Where references resolve alike they are followed alike. -/
theorem followTo_congr (h : ResolvedAlike nodes nodes') {resolve : UInt32 → Build Node}
    (refuses : ∀ i s node s', resolve i s ≠ .ok node s') :
    ∀ (depth : Nat) {j s node s'}, j ∈ nodes.flatMap (·.references) →
      followTo nodes resolve depth j s = .ok node s' →
      followTo nodes' resolve depth j s = .ok node s'
  | 0, j, s, node, s', _, hf => (refuses j s node s' hf).elim
  | depth + 1, j, s, node, s', hj, hf => by
    obtain ⟨n, hn, hb⟩ := followTo_succ refuses hf
    rw [followTo_found ((h j hj).symm.trans hn)]
    exact NodeSpec.build_within (fun i hi t child t' => followTo_congr h refuses depth
      (List.mem_flatMap.2 ⟨n, (mem_of_listed hn).1, hi⟩)) hb

/-- What a root reaches, a node with the same references reaches where they resolve alike. -/
theorem reaches_congr (h : ResolvedAlike nodes nodes') {root root' n : NodeSpec}
    (hmem : root ∈ nodes) (hrefs : root.references = root'.references)
    (hreach : Relation.ReflTransGen (RefersTo nodes) root n) :
    n = root ∨ Relation.ReflTransGen (RefersTo nodes') root' n := by
  have hin : n ∈ nodes ∧ (n = root ∨ Relation.ReflTransGen (RefersTo nodes') root' n) := by
    induction hreach with
    | refl => exact ⟨hmem, .inl rfl⟩
    | tail _ hstep ih =>
      obtain ⟨j, hj, hn⟩ := hstep
      obtain ⟨hmid, ih⟩ := ih
      have hn' := (h j (List.mem_flatMap.2 ⟨_, hmid, hj⟩)).symm.trans hn
      refine ⟨(mem_of_listed hn).1, .inr ?_⟩
      rcases ih with rfl | ih
      · exact .single ⟨j, hrefs ▸ hj, hn'⟩
      · exact ih.tail ⟨j, hj, hn'⟩
  exact hin.2

end

section

variable {ns nodes nodes' : List NodeSpec} {r : NodeSpec} {x y : Option UInt32}

/-- A list holds a root under an index, if any, that no other node has and none refers to, and
otherwise indexed nodes. -/
structure RootedIn (ns : List NodeSpec) (r : NodeSpec) (x : Option UInt32)
    (nodes : List NodeSpec) : Prop where
  perm : nodes.Perm (r.withIndex x :: ns)
  indexed : ∀ n ∈ ns, n.index.isSome
  fresh : ∀ n ∈ ns, n.index ≠ x
  unused : ∀ n ∈ r :: ns, ∀ j ∈ n.references, x ≠ some j

namespace RootedIn

theorem references_perm (h : RootedIn ns r x nodes) :
    (nodes.flatMap (·.references)).Perm ((r :: ns).flatMap (·.references)) := by
  refine (h.perm.flatMap_right _).trans (.of_eq ?_)
  rw [List.flatMap_cons, List.flatMap_cons, NodeSpec.withIndex_references]

theorem indexes_perm (h : RootedIn ns r x nodes) :
    (listedIndexes nodes).Perm (x.toList ++ listedIndexes ns) := by
  refine (h.perm.filterMap _).trans (.of_eq ?_)
  rcases x with _ | i <;> rfl

theorem nodup_iff (h : RootedIn ns r x nodes) :
    (listedIndexes nodes).Nodup ↔ (listedIndexes ns).Nodup := by
  rw [h.indexes_perm.nodup_iff]
  rcases hx : x with _ | i
  · rfl
  · refine List.nodup_cons.trans (and_iff_right fun hi => ?_)
    obtain ⟨n, hn, hi⟩ := mem_listedIndexes.1 hi
    exact h.fresh n hn (hi.trans hx.symm)

theorem mem_references {j : UInt32} (h : RootedIn ns r x nodes) :
    j ∈ nodes.flatMap (·.references) ↔ j ∈ (r :: ns).flatMap (·.references) :=
  h.references_perm.mem_iff

theorem ne_of_mem_references {j : UInt32} (h : RootedIn ns r x nodes)
    (hj : j ∈ (r :: ns).flatMap (·.references)) : x ≠ some j := by
  obtain ⟨n, hn, hj⟩ := List.mem_flatMap.1 hj
  exact h.unused n hn j hj

/-- But for its root a list is the other nodes. -/
theorem listed_eq (h : RootedIn ns r x nodes) (hd : (listedIndexes ns).Nodup) {j : UInt32}
    (hj : x ≠ some j) : listed nodes j = listed ns j := by
  rcases hn : listed ns j with _ | n
  · refine List.find?_eq_none.2 fun n hmem => ?_
    rcases List.mem_cons.1 (h.perm.mem_iff.1 hmem) with rfl | hmem
    · exact mt of_decide_eq_true hj
    · exact List.find?_eq_none.1 hn n hmem
  · obtain ⟨hmem, hi⟩ := mem_of_listed hn
    exact listed_of_mem hi (h.nodup_iff.2 hd) (h.perm.mem_iff.2 (List.mem_cons_of_mem _ hmem))

theorem resolvedAlike (h : RootedIn ns r x nodes) (h' : RootedIn ns r y nodes')
    (hd : (listedIndexes ns).Nodup) : ResolvedAlike nodes nodes' := by
  intro j hj
  rw [h.mem_references] at hj
  rw [h.listed_eq hd (h.ne_of_mem_references hj), h'.listed_eq hd (h'.ne_of_mem_references hj)]

/-- Every other node is referred to once in one list if it is in the other. -/
theorem once (h : RootedIn ns r x nodes) (h' : RootedIn ns r y nodes')
    (hattached : Attached nodes (r.withIndex x)) :
    ∀ j ∈ listedIndexes nodes', y ≠ some j → (nodes'.flatMap (·.references)).count j = 1 := by
  intro j hj hy
  rw [h'.indexes_perm.mem_iff, List.mem_append, Option.mem_toList] at hj
  obtain ⟨n, hn, hi⟩ := mem_listedIndexes.1 (hj.resolve_left hy)
  have hmem : n ∈ nodes := h.perm.mem_iff.2 (List.mem_cons_of_mem _ hn)
  rw [h'.references_perm.count_eq, ← h.references_perm.count_eq]
  exact hattached.once j (mem_listedIndexes.2 ⟨n, hmem, hi⟩)
    fun hx => h.fresh n hn (hi.trans hx.symm)

/-- Where every other node is referred to once, the root has no index or is the one that is not
referred to. -/
theorem chosen (h : RootedIn ns r x nodes)
    (honce : ∀ j ∈ listedIndexes nodes, x ≠ some j →
      (nodes.flatMap (·.references)).count j = 1) :
    x = none ∨ (∀ n ∈ nodes, n.index.isSome) ∧
      ∀ j ∈ listedIndexes nodes, j ∉ nodes.flatMap (·.references) ↔ x = some j := by
  rcases hx : x with _ | i
  · exact .inl rfl
  · refine .inr ⟨fun n hn => ?_, fun j hj => ?_⟩
    · rcases List.mem_cons.1 (h.perm.mem_iff.1 hn) with rfl | hn
      · rw [NodeSpec.withIndex_index, hx, Option.isSome_some]
      · exact h.indexed n hn
    · rw [← hx]
      constructor
      · intro hnot
        by_contra hne
        have hcount := honce j hj hne
        rw [List.count_eq_zero.2 hnot] at hcount
        exact absurd hcount Nat.zero_ne_one
      · intro heq hin
        exact h.ne_of_mem_references (h.mem_references.1 hin) heq

/-- What one list reaches from its root, the other reaches from its own. -/
theorem reached (h : RootedIn ns r x nodes) (h' : RootedIn ns r y nodes')
    (hattached : Attached nodes (r.withIndex x)) :
    ∀ n ∈ nodes', Relation.ReflTransGen (RefersTo nodes') (r.withIndex y) n := by
  intro n hn
  rcases List.mem_cons.1 (h'.perm.mem_iff.1 hn) with rfl | hn
  · exact .refl
  have hmem : n ∈ nodes := h.perm.mem_iff.2 (List.mem_cons_of_mem _ hn)
  have hrefs : (r.withIndex x).references = (r.withIndex y).references := by simp
  have halike := h.resolvedAlike h' (h.nodup_iff.1 hattached.distinct)
  refine (reaches_congr halike hattached.mem hrefs (hattached.reached n hmem)).resolve_left ?_
  rintro rfl
  exact h.fresh _ hn rfl

end RootedIn

/-- A list that is attached to its root is so in another order and under another index of it. -/
theorem Attached.reindexed (h : RootedIn ns r x nodes) (h' : RootedIn ns r y nodes')
    (hlast : ∀ n ∈ nodes'.dropLast, n.index.isSome) (hattached : Attached nodes (r.withIndex x)) :
    Attached nodes' (r.withIndex y) where
  distinct := h'.nodup_iff.2 (h.nodup_iff.1 hattached.distinct)
  last := hlast
  mem := h'.perm.mem_iff.2 List.mem_cons_self
  chosen := h'.chosen (h.once h' hattached)
  once := h.once h' hattached
  inside := by
    intro j hj
    rw [h'.mem_references] at hj
    have hin := (hattached.inside j (h.mem_references.2 hj)).1
    rw [h.indexes_perm.mem_iff, List.mem_append, Option.mem_toList] at hin
    refine ⟨h'.indexes_perm.mem_iff.2 (List.mem_append_right _ ?_), h'.ne_of_mem_references hj⟩
    exact hin.resolve_left (h.ne_of_mem_references hj)
  reached := h.reached h' hattached
  definite := by
    intro n hn
    rcases List.mem_cons.1 (h'.perm.mem_iff.1 hn) with rfl | hn
    · have hroot := hattached.definite _ hattached.mem
      rwa [NodeSpec.withIndex_definite] at hroot ⊢
    · exact hattached.definite n (h.perm.mem_iff.2 (List.mem_cons_of_mem _ hn))

/-- No other node of a list can be its root. -/
theorem RootedIn.root_eq (h : RootedIn ns r x nodes) {root : NodeSpec}
    (hattached : Attached nodes root) : root = r.withIndex x := by
  rcases List.mem_cons.1 (h.perm.mem_iff.1 hattached.mem) with heq | hroot
  · exact heq
  have hmem : r.withIndex x ∈ nodes := h.perm.mem_iff.2 List.mem_cons_self
  obtain ⟨i, hi⟩ := Option.isSome_iff_exists.1 (h.indexed root hroot)
  rcases hattached.chosen with hnone | ⟨hall, hchosen⟩
  · rw [hnone] at hi
    cases hi
  obtain ⟨j, hj⟩ := Option.isSome_iff_exists.1 (hall _ hmem)
  rw [NodeSpec.withIndex_index] at hj
  have hlisted : j ∈ listedIndexes nodes := mem_listedIndexes.2 ⟨_, hmem, hj⟩
  refine absurd ((hchosen j hlisted).1 fun hin => ?_) ?_
  · exact h.ne_of_mem_references (h.mem_references.1 hin) hj
  · exact fun hroot' => h.fresh root hroot (hroot'.trans hj.symm)

namespace Node

/-- A list that is built is built in another order and under another index of the root, as the same
tree but for that index. -/
theorem ofNodes_reindexed (h : RootedIn ns r x nodes) (h' : RootedIn ns r y nodes')
    (hlast : ∀ n ∈ nodes'.dropLast, n.index.isSome) {tree : Node}
    (hb : ofNodes nodes = .ok tree) : ofNodes nodes' = .ok { tree with index := y } := by
  obtain ⟨root, hattached, depth, hb⟩ := attached_of_ofNodes hb
  obtain rfl := h.root_eq hattached
  obtain ⟨s, hb⟩ := ofRoot_eq_ok.1 hb
  rw [NodeSpec.inlined_build] at hb
  have hd := h.nodup_iff.1 hattached.distinct
  have hfollow : (r.withIndex x).build (followTo nodes' (Arena.resolveTo 0) depth) .empty
      = .ok tree s :=
    NodeSpec.build_within (fun i hi t child t' =>
      followTo_congr (h.resolvedAlike h' hd) Arena.resolveTo_zero depth
        (List.mem_flatMap.2 ⟨_, hattached.mem, hi⟩)) hb
  have hb' : ofRoot ((r.withIndex y).inlined nodes' depth) = .ok { tree with index := y } := by
    refine ofRoot_eq_ok.2 ⟨s, ?_⟩
    rw [NodeSpec.inlined_build, ← NodeSpec.withIndex_withIndex x]
    exact NodeSpec.build_withIndex hfollow
  exact ofNodes_of_attached (hattached.reindexed h h' hlast) hb'

theorem withIndex_apply (tree : Node) (x : Option UInt32) :
    ({ tree with index := x } : Node).apply = tree.apply := by
  rcases tree with ⟨name, index, fromBuilder, kind⟩
  rw [Node.apply, Node.apply]

/-- Neither the order of a list nor the index of its root matters: with the root last and without
index, or anywhere under an index that nothing has or refers to, it is built or not alike, and the
two trees label alike. -/
theorem ofNodes_reordered {ns nodes : List NodeSpec} {r : NodeSpec} {i : UInt32}
    (hindexed : ∀ n ∈ ns, n.index.isSome) (hfresh : ∀ n ∈ ns, n.index ≠ some i)
    (hunused : ∀ n ∈ r :: ns, i ∉ n.references)
    (hperm : nodes.Perm (r.withIndex (some i) :: ns)) :
    ((∃ tree, ofNodes (ns ++ [r.withIndex none]) = .ok tree) ↔
      ∃ tree, ofNodes nodes = .ok tree) ∧
    ∀ tree tree', ofNodes (ns ++ [r.withIndex none]) = .ok tree → ofNodes nodes = .ok tree' →
      tree.apply = tree'.apply := by
  have hlast : RootedIn ns r none (ns ++ [r.withIndex none]) :=
    ⟨List.perm_append_singleton _ _, hindexed,
      fun n hn => Option.isSome_iff_ne_none.1 (hindexed n hn), fun _ _ _ _ h => nomatch h⟩
  have hany : RootedIn ns r (some i) nodes := by
    refine ⟨hperm, hindexed, hfresh, fun n hn j hj h => hunused n hn ?_⟩
    rwa [Option.some.inj h]
  have hdrop : ∀ n ∈ (ns ++ [r.withIndex none]).dropLast, n.index.isSome := by
    rwa [List.dropLast_concat]
  have hdrop' : ∀ n ∈ nodes.dropLast, n.index.isSome := by
    intro n hn
    rcases List.mem_cons.1 (hperm.mem_iff.1 ((List.dropLast_sublist nodes).subset hn)) with rfl | hn
    · rfl
    · exact hindexed n hn
  refine ⟨⟨fun ⟨tree, h⟩ => ⟨_, ofNodes_reindexed hlast hany hdrop' h⟩,
    fun ⟨tree, h⟩ => ⟨_, ofNodes_reindexed hany hlast hdrop h⟩⟩, fun tree tree' h h' => ?_⟩
  have heq := h'.symm.trans (ofNodes_reindexed hlast hany hdrop' h)
  cases heq
  exact (withIndex_apply tree (some i)).symm

/-- A leaf and a stop, which a branch and the tree of its update refer to. -/
def listedPair : List NodeSpec :=
  [⟨none, some 2, none, none, some ⟨[⟨0, 0⟩], none⟩, none⟩,
    ⟨none, some 5, none, none, none, some ()⟩]

def pairRoot : NodeSpec :=
  let always : FilterSpec := ⟨.always, none, none, []⟩
  ⟨some "root", none, none,
    some ⟨[⟨none, some 2, none, some always⟩], none,
      some [⟨none, none, none, none, none, some (some ⟨none, none, none,
        some ⟨[⟨none, some 5, none, some always⟩], none, none, none⟩, none, none⟩)⟩], none⟩,
    none, none⟩

theorem ofNodes_reordered_pair :
    (∀ n ∈ listedPair, n.index.isSome) ∧ (∀ n ∈ listedPair, n.index ≠ some 0) ∧
    (∀ n ∈ pairRoot :: listedPair, 0 ∉ n.references) ∧
    (pairRoot.withIndex (some 0) :: listedPair.reverse).Perm
      (pairRoot.withIndex (some 0) :: listedPair) ∧
    ∃ tree tree', ofNodes (listedPair ++ [pairRoot.withIndex none]) = .ok tree ∧
      ofNodes (pairRoot.withIndex (some 0) :: listedPair.reverse) = .ok tree' ∧
      tree.apply = tree'.apply := by
  have hindexed : ∀ n ∈ listedPair, n.index.isSome := by simp [listedPair]
  have hfresh : ∀ n ∈ listedPair, n.index ≠ some 0 := by simp [listedPair]
  have hunused : ∀ n ∈ pairRoot :: listedPair, 0 ∉ n.references := by
    simp [listedPair, pairRoot, NodeSpec.references, BranchSpec.references, edgesReferences,
      EdgeSpec.references, updatesReferences, UpdateSpec.references]
  have hperm : (pairRoot.withIndex (some 0) :: listedPair.reverse).Perm
      (pairRoot.withIndex (some 0) :: listedPair) := (List.reverse_perm _).cons _
  obtain ⟨hiff, hsame⟩ := ofNodes_reordered hindexed hfresh hunused hperm
  have hbuilt : ∃ tree, ofNodes (listedPair ++ [pairRoot.withIndex none]) = .ok tree := ⟨_, rfl⟩
  obtain ⟨tree', h'⟩ := hiff.1 hbuilt
  obtain ⟨tree, h⟩ := hbuilt
  exact ⟨hindexed, hfresh, hunused, hperm, tree, tree', h, h', hsame tree tree' h h'⟩

end Node

end

end VirtualPeople
