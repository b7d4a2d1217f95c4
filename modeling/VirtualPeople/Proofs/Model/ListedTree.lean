import VirtualPeople.Proofs.Model.Listing
import Mathlib.Data.List.Nodup
import Mathlib.Data.List.Pairwise

/-!
# Lists mean their inlined tree

A list of nodes is built if every node but the root is referred to exactly once, all are reached
from the root, and the tree inlined at the root is built; the two are then the same node.

The chains of the root's references and the references of the whole list both hold the references
of the root and those of each of their own members; a list that does so and has no index twice
holds whatever the root reaches exactly once (`perm_of_reached`).
-/

namespace VirtualPeople

section

variable {α : Type} [DecidableEq α] {all taken roots : List α} {next : α → List α}

theorem count_flatMap_of_alone {a k : α} :
    ∀ (l : List α), (∀ x ∈ l, x ≠ k → a ∉ next x) →
      (l.flatMap next).count a = l.count k * (next k).count a
  | [], _ => by simp
  | x :: l, h => by
    have ih := count_flatMap_of_alone l fun y hy => h y (List.mem_cons_of_mem x hy)
    rw [List.flatMap_cons, List.count_append, ih]
    by_cases hx : x = k
    · rw [hx, List.count_cons_self, Nat.add_mul, Nat.one_mul, Nat.add_comm]
    · rw [List.count_eq_zero.2 (h x List.mem_cons_self hx), List.count_cons_of_ne hx, Nat.zero_add]

/-- Of two lists that hold what they start from and what their members lead to, the second without
repetition, the first is the second if that is all reached. -/
theorem perm_of_reached (hd : all.Nodup) (hall : all.Perm (roots ++ all.flatMap next))
    (htaken : taken.Perm (roots ++ taken.flatMap next)) (hsub : taken ⊆ all)
    (hreach : ∀ a ∈ all, ∃ r ∈ roots, Relation.ReflTransGen (fun a b => b ∈ next a) r a) :
    taken.Perm all := by
  have hnodup := hall.nodup_iff.1 hd
  obtain ⟨hroots, hnext, hdisj⟩ := List.nodup_append'.1 hnodup
  have hpair : ∀ x ∈ all, ∀ k ∈ all, x ≠ k → ∀ a ∈ next k, a ∉ next x := by
    have : Std.Symm (Function.onFun List.Disjoint next) := ⟨fun _ _ h _ ha hb => h hb ha⟩
    intro x hx k hk hne a ha ha'
    exact (List.nodup_flatMap.1 hnext).2.forall hx hk hne ha' ha
  have hcount (a : α) (r : α) (hr : r ∈ roots)
      (h : Relation.ReflTransGen (fun a b => b ∈ next a) r a) : taken.count a = 1 := by
    induction h with
    | refl =>
      have hnot : r ∉ taken.flatMap next := by
        rw [List.mem_flatMap]
        rintro ⟨x, hx, hmem⟩
        exact hdisj hr (List.mem_flatMap.2 ⟨x, hsub hx, hmem⟩)
      rw [htaken.count_eq, List.count_append, List.count_eq_one_of_mem hroots hr,
        List.count_eq_zero.2 hnot]
    | @tail k a _ hka ih =>
      have hk : k ∈ all := hsub (List.count_pos_iff.1 (by omega))
      have hmem : a ∈ all.flatMap next := List.mem_flatMap.2 ⟨k, hk, hka⟩
      rw [htaken.count_eq, List.count_append, List.count_eq_zero.2 fun hr => hdisj hr hmem,
        count_flatMap_of_alone taken fun x hx hne => hpair x (hsub hx) k hk hne a hka, ih,
        List.count_eq_one_of_mem ((List.nodup_flatMap.1 hnext).1 k hk) hka]
  refine List.perm_iff_count.2 fun a => ?_
  by_cases ha : a ∈ all
  · obtain ⟨r, hr, h⟩ := hreach a ha
    rw [hcount a r hr h, List.count_eq_one_of_mem hd ha]
  · rw [List.count_eq_zero.2 ha, List.count_eq_zero.2 fun h => ha (hsub h)]

end

/-- The indexes of listed nodes. -/
def listedIndexes (nodes : List NodeSpec) : List UInt32 := nodes.filterMap (·.index)

/-- The listed nodes that have an index, under it. -/
def entries (nodes : List NodeSpec) : List (UInt32 × NodeSpec) :=
  nodes.filterMap fun n => n.index.map fun i => (i, n)

/-- The last node, if it has no index. -/
def unindexed (nodes : List NodeSpec) : Option NodeSpec :=
  nodes.getLast?.filter fun n => n.index.isNone

theorem entries_keys (nodes : List NodeSpec) : (entries nodes).map (·.1) = listedIndexes nodes := by
  rw [entries, listedIndexes, List.map_filterMap]
  congr
  funext n
  rcases n.index with _ | i <;> rfl

theorem mem_entries {nodes : List NodeSpec} {i : UInt32} {n : NodeSpec} :
    (i, n) ∈ entries nodes ↔ n ∈ nodes ∧ n.index = some i := by
  simp only [entries, List.mem_filterMap, Option.map_eq_some_iff, Prod.mk.injEq]
  constructor
  · rintro ⟨m, hm, j, hj, rfl, rfl⟩
    exact ⟨hm, hj⟩
  · rintro ⟨hm, hi⟩
    exact ⟨n, hm, i, hi, rfl, rfl⟩

theorem mem_listedIndexes {nodes : List NodeSpec} {i : UInt32} :
    i ∈ listedIndexes nodes ↔ ∃ n ∈ nodes, n.index = some i :=
  List.mem_filterMap

theorem listedIndexes_cons {n : NodeSpec} {i : UInt32} (h : n.index = some i)
    (rest : List NodeSpec) : listedIndexes (n :: rest) = i :: listedIndexes rest :=
  List.filterMap_cons_some h

theorem listedIndexes_sublist (n : NodeSpec) (rest : List NodeSpec) :
    (listedIndexes rest).Sublist (listedIndexes (n :: rest)) :=
  (List.sublist_cons_self n rest).filterMap _

theorem entries_cons {n : NodeSpec} {i : UInt32} (h : n.index = some i) (rest : List NodeSpec) :
    entries (n :: rest) = (i, n) :: entries rest :=
  List.filterMap_cons_some (by rw [h]; rfl)

theorem unindexed_cons {n : NodeSpec} {i : UInt32} (h : n.index = some i) (rest : List NodeSpec) :
    unindexed (n :: rest) = unindexed rest := by
  rcases rest with _ | ⟨m, rest⟩
  · simp [unindexed, Option.filter, h]
  · simp [unindexed, List.getLast?_cons]

theorem dropLast_cons_indexed {n : NodeSpec} {i : UInt32} (h : n.index = some i)
    (rest : List NodeSpec) :
    (∀ m ∈ (n :: rest).dropLast, m.index.isSome) ↔ ∀ m ∈ rest.dropLast, m.index.isSome := by
  rcases rest with _ | ⟨m, rest⟩
  · simp
  · simp [h]

/-- Where indexes differ, a node that has one is the listed node of it. -/
theorem listed_of_mem {n : NodeSpec} {i : UInt32} (hi : n.index = some i) :
    ∀ {nodes : List NodeSpec}, (listedIndexes nodes).Nodup → n ∈ nodes → listed nodes i = some n
  | m :: rest, hd, hn => by
    by_cases hm : m.index = some i
    · rw [listed, List.find?_cons_of_pos (by simpa using hm)]
      rcases List.mem_cons.1 hn with rfl | hn
      · rfl
      · rw [listedIndexes_cons hm] at hd
        exact absurd (mem_listedIndexes.2 ⟨n, hn, hi⟩) (List.nodup_cons.1 hd).1
    · rw [listed, List.find?_cons_of_neg (by simpa using hm)]
      rcases List.mem_cons.1 hn with rfl | hn
      · exact absurd hi hm
      · exact listed_of_mem hi (hd.sublist (listedIndexes_sublist m rest)) hn

namespace Arena

theorem insert_eq_ok {n : NodeSpec} {i : UInt32} (hi : n.index = some i) {a c : Arena} :
    insert n a = .ok () c ↔ i ∉ a.keys ∧ c = ⟨(i, n) :: a.pending, a.building⟩ := by
  have hany : a.pending.any (·.1 == i) = decide (i ∈ a.keys) := by
    rw [Bool.eq_iff_iff, List.any_eq_true, decide_eq_true_eq, keys, List.mem_map]
    simp only [beq_iff_eq]
  have hfilter (hk : i ∉ a.keys) : a.pending.filter (·.1 ≠ i) = a.pending := by
    refine List.filter_eq_self.2 fun p hp => decide_eq_true ?_
    rintro rfl
    exact hk (List.mem_map_of_mem hp)
  simp only [insert, hi, hany, decide_eq_true_eq]
  by_cases hk : i ∈ a.keys
  · simp [hk]
  · rw [if_neg hk, hfilter hk]
    simp [hk, eq_comm]

theorem ofNodes_eq_ok :
    ∀ (nodes : List NodeSpec) {a c : Arena} {root : Option NodeSpec},
      ofNodes a nodes = .ok (c, root) ↔
        ((listedIndexes nodes).Nodup ∧ ∀ i ∈ listedIndexes nodes, i ∉ a.keys) ∧
        (∀ n ∈ nodes.dropLast, n.index.isSome) ∧
        c = ⟨(entries nodes).reverse ++ a.pending, a.building⟩ ∧ root = unindexed nodes
  | [], a, c, root => by
    rw [ofNodes]
    constructor
    · intro h
      cases h
      exact ⟨⟨List.nodup_nil, by simp [listedIndexes]⟩, by simp, rfl, rfl⟩
    · rintro ⟨-, -, rfl, rfl⟩
      rfl
  | n :: rest, a, c, root => by
    rcases hi : n.index with _ | i
    · simp only [ofNodes, hi]
      rcases rest with _ | ⟨m, rest⟩
      · rw [List.isEmpty_nil, if_pos rfl]
        constructor
        · intro h
          cases h
          simp [listedIndexes, entries, unindexed, Option.filter, hi]
        · rintro ⟨-, -, rfl, rfl⟩
          simp [entries, unindexed, Option.filter, hi, pure, Except.pure]
      · rw [List.isEmpty_cons, if_neg Bool.false_ne_true]
        simp [hi, invalidModel]
    · simp only [ofNodes, hi]
      rw [unindexed_cons hi, listedIndexes_cons hi, entries_cons hi, dropLast_cons_indexed hi]
      rcases hins : insert n a with ⟨u, b⟩ | ⟨err, b⟩
      · obtain ⟨hk, rfl⟩ := (insert_eq_ok hi).1 hins
        simp only [ofNodes_eq_ok rest, keys, List.map_cons, List.nodup_cons, List.mem_cons,
          List.reverse_cons, List.append_assoc, List.singleton_append, not_or]
        constructor
        · rintro ⟨⟨hd, hfresh⟩, hrest⟩
          refine ⟨⟨⟨fun hc => (hfresh i hc).1 rfl, hd⟩, fun j hj => ?_⟩, hrest⟩
          rcases hj with rfl | hj
          · exact hk
          · exact (hfresh j hj).2
        · rintro ⟨⟨⟨hi', hd⟩, hfresh⟩, hrest⟩
          exact ⟨⟨hd, fun j hj => ⟨fun hc => hi' (hc ▸ hj), hfresh j (.inr hj)⟩⟩, hrest⟩
      · simp only [reduceCtorEq, false_iff]
        rintro ⟨⟨-, hfresh⟩, -⟩
        have hok := (insert_eq_ok hi).2 ⟨hfresh i List.mem_cons_self, rfl⟩
        rw [hins] at hok
        cases hok

/-- The arena of a list. -/
def ofList (nodes : List NodeSpec) : Arena := ⟨(entries nodes).reverse, []⟩

theorem ofNodes_empty {nodes : List NodeSpec} {c : Arena} {root : Option NodeSpec} :
    ofNodes .empty nodes = .ok (c, root) ↔
      (listedIndexes nodes).Nodup ∧ (∀ n ∈ nodes.dropLast, n.index.isSome) ∧
        c = ofList nodes ∧ root = unindexed nodes := by
  rw [ofNodes_eq_ok]
  simp [empty, keys, ofList]

theorem keys_ofList (nodes : List NodeSpec) : (ofList nodes).keys.Perm (listedIndexes nodes) := by
  rw [keys, ofList, List.map_reverse, entries_keys]
  exact List.reverse_perm _

theorem lists_ofList {nodes : List NodeSpec} (hd : (listedIndexes nodes).Nodup) :
    (ofList nodes).Lists nodes := by
  refine ⟨(keys_ofList nodes).nodup_iff.2 hd, ?_, fun i _ => List.not_mem_nil⟩
  rintro ⟨i, n⟩ hp
  obtain ⟨hn, hi⟩ := mem_entries.1 (List.mem_reverse.1 hp)
  exact listed_of_mem hi hd hn

/-- A root index is the one pending index that no pending node refers to. -/
theorem rootIndex_eq_ok {a : Arena} (hd : a.keys.Nodup) {i : UInt32} :
    a.rootIndex = .ok i ↔
      ∀ j, (j ∈ a.keys ∧ j ∉ a.pending.flatMap fun p => p.2.references) ↔ j = i := by
  have hperm : (a.indexes.filter fun j =>
      !(a.pending.flatMap fun p => p.2.references).contains j).Perm
      (a.keys.filter fun j => !(a.pending.flatMap fun p => p.2.references).contains j) :=
    (List.mergeSort_perm _ _).filter _
  have hsingle : (a.indexes.filter fun j =>
      !(a.pending.flatMap fun p => p.2.references).contains j) = [i] ↔
      ∀ j, (j ∈ a.keys ∧ j ∉ a.pending.flatMap fun p => p.2.references) ↔ j = i := by
    rw [← List.perm_singleton, hperm.congr_left, List.perm_ext_iff_of_nodup (hd.filter _)
      (List.nodup_singleton i)]
    simp
  rw [← hsingle]
  simp only [rootIndex]
  generalize (a.indexes.filter fun j =>
    !(a.pending.flatMap fun p => p.2.references).contains j) = roots
  rcases roots with _ | ⟨j, _ | ⟨k, rest⟩⟩
  · simp [invalidModel]
  · simp [pure, Except.pure]
  · simp [invalidModel]

end Arena

/-! ## Attached lists -/

/-- Every node of a list is attached to its root, each one once. -/
structure Attached (nodes : List NodeSpec) (root : NodeSpec) : Prop where
  distinct : (listedIndexes nodes).Nodup
  last : ∀ n ∈ nodes.dropLast, n.index.isSome
  mem : root ∈ nodes
  chosen : root.index = none ∨ (∀ n ∈ nodes, n.index.isSome) ∧
    ∀ i ∈ listedIndexes nodes, i ∉ nodes.flatMap (·.references) ↔ root.index = some i
  once : ∀ i ∈ listedIndexes nodes, root.index ≠ some i →
    (nodes.flatMap (·.references)).count i = 1
  inside : ∀ i ∈ nodes.flatMap (·.references), i ∈ listedIndexes nodes ∧ root.index ≠ some i
  reached : ∀ n ∈ nodes, Relation.ReflTransGen (RefersTo nodes) root n
  definite : ∀ n ∈ nodes, n.Definite

section

variable {nodes : List NodeSpec} {root : NodeSpec}

theorem eq_concat_of_last (hlast : ∀ n ∈ nodes.dropLast, n.index.isSome) (hmem : root ∈ nodes)
    (hroot : root.index = none) : nodes = nodes.dropLast ++ [root] := by
  have hne := List.ne_nil_of_mem hmem
  rw [← List.dropLast_concat_getLast hne, List.mem_append, List.mem_singleton] at hmem
  rcases hmem with hmem | rfl
  · have hsome := hlast root hmem
    rw [hroot] at hsome
    cases hsome
  · exact (List.dropLast_concat_getLast hne).symm

theorem unindexed_eq_some (hlast : ∀ n ∈ nodes.dropLast, n.index.isSome) :
    unindexed nodes = some root ↔ root ∈ nodes ∧ root.index = none := by
  refine ⟨fun h => ?_, fun ⟨hmem, hi⟩ => ?_⟩
  · obtain ⟨hget, hnone⟩ := Option.filter_eq_some_iff.1 h
    exact ⟨List.mem_of_getLast? hget, Option.isNone_iff_eq_none.1 hnone⟩
  · rw [unindexed, eq_concat_of_last hlast hmem hi, List.getLast?_concat]
    simp [Option.filter, hi]

theorem unindexed_eq_none (hlast : ∀ n ∈ nodes.dropLast, n.index.isSome) :
    unindexed nodes = none ↔ ∀ n ∈ nodes, n.index.isSome := by
  constructor
  · intro h n hn
    have hne := List.ne_nil_of_mem hn
    rw [← List.dropLast_concat_getLast hne, List.mem_append, List.mem_singleton] at hn
    rcases hn with hn | rfl
    · exact hlast n hn
    · have hall := Option.filter_eq_none_iff.1 h _ (List.getLast?_eq_some_getLast hne)
      exact Option.isSome_iff_ne_none.2 (by simpa using hall)
  · intro h
    refine Option.filter_eq_none_iff.2 fun n hn => ?_
    have hsome := h n (List.mem_of_getLast? hn)
    simpa using Option.isSome_iff_ne_none.1 hsome

theorem flatMap_referencesOf :
    ∀ {ns : List NodeSpec}, (∀ n ∈ ns, ∃ i, n.index = some i ∧ listed nodes i = some n) →
      (listedIndexes ns).flatMap (referencesOf nodes) = ns.flatMap (·.references)
  | [], _ => rfl
  | n :: ns, h => by
    obtain ⟨i, hi, hn⟩ := h n List.mem_cons_self
    rw [listedIndexes_cons hi, List.flatMap_cons, List.flatMap_cons, referencesOf, hn,
      flatMap_referencesOf fun m hm => h m (List.mem_cons_of_mem n hm)]

/-- The references of a list are those of its root and those of all other indexes. -/
theorem references_perm {others : List UInt32} (hd : (listedIndexes nodes).Nodup)
    (hlast : ∀ n ∈ nodes.dropLast, n.index.isSome) (hmem : root ∈ nodes)
    (hroot : root.index = none ∨ ∀ n ∈ nodes, n.index.isSome)
    (hothers : (listedIndexes nodes).Perm (root.index.toList ++ others)) :
    (nodes.flatMap (·.references)).Perm
      (root.references ++ others.flatMap (referencesOf nodes)) := by
  have hfound {n : NodeSpec} (hn : n ∈ nodes) (hs : n.index.isSome) :
      ∃ i, n.index = some i ∧ listed nodes i = some n := by
    obtain ⟨i, hi⟩ := Option.isSome_iff_exists.1 hs
    exact ⟨i, hi, listed_of_mem hi hd hn⟩
  rcases hi : root.index with _ | i
  · have hconcat := eq_concat_of_last hlast hmem hi
    have hrest : (listedIndexes nodes.dropLast).flatMap (referencesOf nodes)
        = nodes.dropLast.flatMap (·.references) :=
      flatMap_referencesOf fun n hn => hfound ((List.dropLast_sublist nodes).subset hn) (hlast n hn)
    have hindexes : listedIndexes nodes = listedIndexes nodes.dropLast := by
      rw [hconcat, listedIndexes, listedIndexes, List.filterMap_append]
      simp [hi]
    rw [hi, hindexes] at hothers
    have hrefs : nodes.flatMap (·.references)
        = (listedIndexes nodes.dropLast).flatMap (referencesOf nodes) ++ root.references := by
      rw [hrest, hconcat]
      simp
    rw [hrefs]
    exact List.perm_append_comm.trans ((hothers.flatMap_right _).append_left _)
  · have hall := hroot.resolve_left (by simp [hi])
    rw [← flatMap_referencesOf fun n hn => hfound hn (hall n hn)]
    rw [hi] at hothers
    have hflat := hothers.flatMap_right (referencesOf nodes)
    rwa [Option.toList_some, List.singleton_append, List.flatMap_cons, referencesOf,
      listed_of_mem hi hd hmem] at hflat

/-- A root that is built with the chains of its references as all other indexes is that of an
attached list. -/
theorem attached_of_build {resolve : UInt32 → Build Node}
    (refuses : ∀ i s node s', resolve i s ≠ .ok node s') {depth : Nat} {s s' : Arena} {node : Node}
    (hd : (listedIndexes nodes).Nodup) (hlast : ∀ n ∈ nodes.dropLast, n.index.isSome)
    (hmem : root ∈ nodes)
    (hchosen : root.index = none ∨ (∀ n ∈ nodes, n.index.isSome) ∧
      ∀ i ∈ listedIndexes nodes, i ∉ nodes.flatMap (·.references) ↔ root.index = some i)
    (hb : root.build (followTo nodes resolve depth) s = .ok node s')
    (hperm : (listedIndexes nodes).Perm
      (root.index.toList ++ root.references.flatMap (chain nodes depth))) :
    Attached nodes root := by
  have hsettled : ∀ i ∈ root.references, Settled nodes depth i := by
    intro i hi
    obtain ⟨t, child, t', hf⟩ := NodeSpec.resolve_of_build hb i hi
    exact settled_of_followTo refuses depth hf
  have hrefs : (nodes.flatMap (·.references)).Perm
      (root.references.flatMap (chain nodes depth)) :=
    (references_perm hd hlast hmem (hchosen.imp_right And.left) hperm).trans
      (flatMap_chain_perm fun i hi => chain_perm depth (hsettled i hi)).symm
  have hall := hperm.trans (hrefs.symm.append_left root.index.toList)
  have hnodup := hall.nodup_iff.1 hd
  have hreach (n : NodeSpec) (hn : n ∈ nodes) :
      n.Definite ∧ Relation.ReflTransGen (RefersTo nodes) root n := by
    by_cases heq : n = root
    · rw [heq]
      exact ⟨root.definite_of_build hb, .refl⟩
    rcases hi : n.index with _ | i
    · rcases hchosen with hroot | hroot
      · have hconcat := (eq_concat_of_last hlast hn hi).symm.trans
          (eq_concat_of_last hlast hmem hroot)
        exact absurd (List.singleton_inj.1 (List.append_cancel_left hconcat)) heq
      · have hsome := hroot.1 n hn
        rw [hi] at hsome
        cases hsome
    · have hlisted := listed_of_mem hi hd hn
      rcases List.mem_append.1 (hperm.mem_iff.1 (mem_listedIndexes.2 ⟨n, hn, hi⟩)) with hr | hr
      · have hlisted' := listed_of_mem (Option.mem_toList.1 hr) hd hmem
        exact absurd (Option.some.inj (hlisted.symm.trans hlisted')) heq
      · obtain ⟨j, hj, hij⟩ := List.mem_flatMap.1 hr
        obtain ⟨t, child, t', hf⟩ := NodeSpec.resolve_of_build hb j hj
        obtain ⟨n', m, hn', hm, hdef, hreach⟩ := reached_of_mem_chain refuses depth hf i hij
        obtain rfl : n = m := Option.some.inj (hlisted.symm.trans hm)
        exact ⟨hdef, .head ⟨j, hj, hn'⟩ hreach⟩
  refine ⟨hd, hlast, hmem, hchosen, fun i hi hne => ?_, fun i hi => ⟨?_, fun hc => ?_⟩,
    fun n hn => (hreach n hn).2, fun n hn => (hreach n hn).1⟩
  · have hi' := (hall.mem_iff.1 hi)
    rw [List.mem_append, Option.mem_toList] at hi'
    exact List.count_eq_one_of_mem (List.nodup_append'.1 hnodup).2.1 (hi'.resolve_left hne)
  · exact hall.mem_iff.2 (List.mem_append_right _ hi)
  · exact (List.nodup_append'.1 hnodup).2.2 (Option.mem_toList.2 hc) hi

theorem mem_references_of_mem {i k : UInt32} (h : i ∈ referencesOf nodes k) :
    i ∈ nodes.flatMap (·.references) := by
  rw [referencesOf] at h
  rcases hk : listed nodes k with _ | n
  · rw [hk] at h
    cases h
  · rw [hk] at h
    exact List.mem_flatMap.2 ⟨n, (mem_of_listed hk).1, h⟩

/-- What is reached from a node through listed nodes is reached from its references through
indexes. -/
theorem references_of_reached {n : NodeSpec}
    (h : Relation.ReflTransGen (RefersTo nodes) root n) :
    n = root ∨ ∃ i, ∃ r ∈ root.references,
      Relation.ReflTransGen (fun j k => k ∈ referencesOf nodes j) r i ∧
        listed nodes i = some n := by
  induction h with
  | refl => exact .inl rfl
  | tail _ hstep ih =>
    obtain ⟨k, hk, hn⟩ := hstep
    rcases ih with rfl | ⟨i, r, hr, hreach, hi⟩
    · exact .inr ⟨k, k, hk, .refl, hn⟩
    · refine .inr ⟨k, r, hr, hreach.tail ?_, hn⟩
      rwa [referencesOf, hi]

namespace Attached

theorem nodup (h : Attached nodes root) : (nodes.flatMap (·.references)).Nodup := by
  refine List.nodup_iff_count_le_one.2 fun i => ?_
  by_cases hi : i ∈ nodes.flatMap (·.references)
  · exact Nat.le_of_eq (h.once i (h.inside i hi).1 (h.inside i hi).2)
  · rw [List.count_eq_zero.2 hi]
    exact Nat.zero_le 1

/-- The references of an attached list are all indexes but that of its root. -/
theorem indexes_perm (h : Attached nodes root) :
    (listedIndexes nodes).Perm (root.index.toList ++ nodes.flatMap (·.references)) := by
  refine (List.perm_ext_iff_of_nodup h.distinct ?_).2 fun i => ?_
  · exact List.nodup_append'.2 ⟨by cases root.index <;> simp, h.nodup, fun i hr hi =>
      (h.inside i hi).2 (Option.mem_toList.1 hr)⟩
  · rw [List.mem_append, Option.mem_toList]
    constructor
    · intro hi
      by_cases hr : root.index = some i
      · exact .inl hr
      · exact .inr (List.count_pos_iff.1 (by rw [h.once i hi hr]; exact Nat.one_pos))
    · rintro (hr | hi)
      · exact mem_listedIndexes.2 ⟨root, h.mem, hr⟩
      · exact (h.inside i hi).1

/-- The chains of the references of the root of an attached list are all other indexes. -/
theorem chains_perm {resolve : UInt32 → Build Node}
    (refuses : ∀ i s node s', resolve i s ≠ .ok node s') {depth : Nat} {s s' : Arena} {node : Node}
    (h : Attached nodes root) (hb : root.build (followTo nodes resolve depth) s = .ok node s') :
    (listedIndexes nodes).Perm
      (root.index.toList ++ root.references.flatMap (chain nodes depth)) := by
  have htaken : (root.references.flatMap (chain nodes depth)).Perm
      (root.references ++
        (root.references.flatMap (chain nodes depth)).flatMap (referencesOf nodes)) := by
    refine flatMap_chain_perm fun i hi => chain_perm depth ?_
    obtain ⟨t, child, t', hf⟩ := NodeSpec.resolve_of_build hb i hi
    exact settled_of_followTo refuses depth hf
  have hown := references_perm h.distinct h.last h.mem (h.chosen.imp_right And.left) h.indexes_perm
  refine h.indexes_perm.trans (.append_left _ (perm_of_reached h.nodup hown htaken ?_ ?_).symm)
  · intro i hi
    rcases List.mem_append.1 (htaken.mem_iff.1 hi) with hi | hi
    · exact List.mem_flatMap.2 ⟨root, h.mem, hi⟩
    · obtain ⟨k, -, hk⟩ := List.mem_flatMap.1 hi
      exact mem_references_of_mem hk
  · intro i hi
    obtain ⟨n, hn, hi'⟩ := mem_listedIndexes.1 (h.inside i hi).1
    rcases references_of_reached (h.reached n hn) with rfl | ⟨j, r, hr, hreach, hj⟩
    · exact absurd hi' (h.inside i hi).2
    · obtain rfl : i = j := Option.some.inj (hi'.symm.trans (mem_of_listed hj).2)
      exact ⟨r, hr, hreach⟩

end Attached

end

namespace Node

theorem ofRoot_eq_ok {root : NodeSpec} {node : Node} :
    ofRoot root = .ok node ↔ ∃ s, root.build (Arena.resolveTo 0) .empty = .ok node s := by
  have hbuild : Arena.build root .empty = root.build (Arena.resolveTo 0) .empty := rfl
  rw [ofRoot, hbuild]
  rcases root.build (Arena.resolveTo 0) .empty with ⟨built, s⟩ | ⟨err, s⟩
  · simp [pure, Except.pure]
  · simp

theorem exhausting_eq_ok {build : Build Node} {a : Arena} {node : Node} :
    exhausting build a = .ok node ↔ ∃ c, build a = .ok node c ∧ c.pending = [] := by
  rw [exhausting]
  rcases build a with ⟨built, c⟩ | ⟨err, c⟩
  · by_cases hc : c.pending = []
    · simp [hc, pure, Except.pure]
    · simp [hc, invalidModel]
  · simp

theorem ofNodes_eq_ok {nodes : List NodeSpec} {node : Node} :
    ofNodes nodes = .ok node ↔
      (listedIndexes nodes).Nodup ∧ (∀ n ∈ nodes.dropLast, n.index.isSome) ∧
        ((∃ root, unindexed nodes = some root ∧
            exhausting (Arena.build root) (.ofList nodes) = .ok node) ∨
          ∃ i, unindexed nodes = none ∧ (Arena.ofList nodes).rootIndex = .ok i ∧
            exhausting (Arena.resolve i) (.ofList nodes) = .ok node) := by
  rw [ofNodes]
  rcases h : Arena.ofNodes .empty nodes with err | ⟨c, root⟩
  · refine iff_of_false (fun hc => by cases hc) fun hc => ?_
    have hok := Arena.ofNodes_empty.2 ⟨hc.1, hc.2.1, rfl, rfl⟩
    rw [h] at hok
    cases hok
  · obtain ⟨hd, hlast, rfl, rfl⟩ := Arena.ofNodes_empty.1 h
    rw [and_iff_right hd, and_iff_right hlast]
    rcases unindexed nodes with _ | root
    · rcases hi : (Arena.ofList nodes).rootIndex with err | i
      · simp [bind, Except.bind, hi]
      · simp [bind, Except.bind, hi]
    · simp [bind, Except.bind]

variable {nodes : List NodeSpec} {root : NodeSpec} {node : Node}

theorem mem_pending_references (hall : ∀ n ∈ nodes, n.index.isSome) {i : UInt32} :
    i ∈ ((Arena.ofList nodes).pending.flatMap fun p => p.2.references) ↔
      i ∈ nodes.flatMap (·.references) := by
  simp only [Arena.ofList, List.mem_flatMap, List.mem_reverse]
  constructor
  · rintro ⟨p, hp, hi⟩
    exact ⟨p.2, (mem_entries.1 hp).1, hi⟩
  · rintro ⟨n, hn, hi⟩
    obtain ⟨j, hj⟩ := Option.isSome_iff_exists.1 (hall n hn)
    exact ⟨(j, n), mem_entries.2 ⟨hn, hj⟩, hi⟩

/-- The indexes are those taken from the arena of a list when that is used up. -/
theorem indexes_perm_of_takes {taken : List UInt32} {c : Arena}
    (h : Arena.Takes nodes taken (.ofList nodes) c) (hc : c.pending = []) :
    (listedIndexes nodes).Perm taken := by
  have hkeys := (Arena.keys_ofList nodes).symm.trans h.keys
  rwa [Arena.keys, hc, List.map_nil, List.append_nil] at hkeys

/-- A list that is built is attached to a root, and is built as the tree inlined at the root is. -/
theorem attached_of_ofNodes (h : ofNodes nodes = .ok node) :
    ∃ root, Attached nodes root ∧ ∃ depth, ofRoot (root.inlined nodes depth) = .ok node := by
  obtain ⟨hd, hlast, hbuild⟩ := ofNodes_eq_ok.1 h
  have hlists := Arena.lists_ofList hd
  rcases hbuild with ⟨root, hroot, hex⟩ | ⟨i, hnone, hindex, hex⟩
  · obtain ⟨c, hb, hc⟩ := exhausting_eq_ok.1 hex
    obtain ⟨hmem, hi⟩ := (unindexed_eq_some hlast).1 hroot
    obtain ⟨htakes, hfollow⟩ :=
      Arena.build_takes (Arena.resolveTo_sound .empty (Arena.ofList nodes).pending.length) hlists hb
    have hperm := indexes_perm_of_takes htakes hc
    refine ⟨root, attached_of_build Arena.resolveTo_zero hd hlast hmem (.inl hi) hfollow ?_,
      _, ofRoot_eq_ok.2 ⟨_, by rw [NodeSpec.inlined_build]; exact hfollow⟩⟩
    rwa [hi]
  · obtain ⟨c, hb, hc⟩ := exhausting_eq_ok.1 hex
    have hall := (unindexed_eq_none hlast).1 hnone
    rw [Arena.resolve] at hb
    generalize (Arena.ofList nodes).pending.length = bound at hb
    rcases bound with _ | depth
    · exact (Arena.resolveTo_zero i _ _ _ hb).elim
    obtain ⟨htakes, hfollow⟩ : _ ∧ followTo nodes (Arena.resolveTo 0) (depth + 1) i .empty = _ :=
      Arena.resolveTo_sound .empty _ i hlists hb
    obtain ⟨root, hroot, hfollow⟩ := followTo_succ Arena.resolveTo_zero hfollow
    obtain ⟨hmem, hi⟩ := mem_of_listed hroot
    have hperm := indexes_perm_of_takes htakes hc
    have hchosen := (Arena.rootIndex_eq_ok hlists.distinct).1 hindex
    refine ⟨root, attached_of_build Arena.resolveTo_zero hd hlast hmem
      (.inr ⟨hall, fun j hj => ?_⟩) hfollow ?_,
      depth, ofRoot_eq_ok.2 ⟨_, by rw [NodeSpec.inlined_build]; exact hfollow⟩⟩
    · rw [← mem_pending_references hall, hi, Option.some.injEq, eq_comm, ← hchosen j,
        and_iff_right ((Arena.keys_ofList nodes).mem_iff.2 hj)]
    · rw [chain_succ hroot] at hperm
      rwa [hi]

/-- An attached list is built as the tree inlined at its root is. -/
theorem ofNodes_of_attached (h : Attached nodes root) {depth : Nat}
    (hb : ofRoot (root.inlined nodes depth) = .ok node) : ofNodes nodes = .ok node := by
  obtain ⟨s, hb⟩ := ofRoot_eq_ok.1 hb
  rw [NodeSpec.inlined_build] at hb
  have hperm := h.chains_perm Arena.resolveTo_zero hb
  have hlists := Arena.lists_ofList h.distinct
  have hkeys := (Arena.keys_ofList nodes).trans hperm
  refine ofNodes_eq_ok.2 ⟨h.distinct, h.last, ?_⟩
  rcases h.chosen with hi | ⟨hall, hchosen⟩
  · refine .inl ⟨root, (unindexed_eq_some h.last).2 ⟨h.mem, hi⟩, exhausting_eq_ok.2 ?_⟩
    rw [hi] at hkeys
    obtain ⟨c, hc, htakes⟩ :=
      Arena.build_of_pending (Arena.resolveTo_complete Arena.resolveTo_zero depth _) hlists
        (hkeys.trans (.of_eq (List.append_nil _).symm)) (Nat.le_refl _) hb
    exact ⟨c, hc, htakes.pending_eq_nil hkeys⟩
  · obtain ⟨i, hi⟩ := Option.isSome_iff_exists.1 (hall root h.mem)
    have hroot := listed_of_mem hi h.distinct h.mem
    rw [hi, Option.toList_some, List.singleton_append, ← chain_succ hroot] at hkeys
    have hfollow : followTo nodes (Arena.resolveTo 0) (depth + 1) i .empty = .ok node s := by
      simp only [followTo, hroot]
      exact hb
    obtain ⟨c, hc, htakes⟩ := Arena.resolveTo_complete Arena.resolveTo_zero (depth + 1) _ i hlists
      (hkeys.trans (.of_eq (List.append_nil _).symm)) (Nat.le_refl _) hfollow
    refine .inr ⟨i, (unindexed_eq_none h.last).2 hall, ?_,
      exhausting_eq_ok.2 ⟨c, hc, htakes.pending_eq_nil hkeys⟩⟩
    refine (Arena.rootIndex_eq_ok hlists.distinct).2 fun j => ?_
    rw [mem_pending_references hall, (Arena.keys_ofList nodes).mem_iff]
    constructor
    · rintro ⟨hj, hr⟩
      exact Option.some.inj (((hchosen j hj).1 hr).symm.trans hi)
    · rintro rfl
      have hj := mem_listedIndexes.2 ⟨root, h.mem, hi⟩
      exact ⟨hj, (hchosen j hj).2 hi⟩

/-- A list means its inlined tree: it is built if it is attached to a root and the tree inlined
there is built, and the two are the same node. -/
theorem ofNodes_iff_inlined {nodes : List NodeSpec} {node : Node} :
    ofNodes nodes = .ok node ↔
      ∃ root, Attached nodes root ∧ ∃ depth, ofRoot (root.inlined nodes depth) = .ok node := by
  constructor
  · exact attached_of_ofNodes
  · rintro ⟨root, hattached, depth, hb⟩
    exact ofNodes_of_attached hattached hb

end Node

end VirtualPeople
