import VirtualPeople.Proofs.Model.Inlining

/-!
# Attaching listed nodes

Resolving an index takes the chain of it out of an arena, each node once, and builds what following
its references builds (`Arena.resolveTo_sound`); and where the chain is pending, it succeeds
(`Arena.resolveTo_complete`).
-/

namespace VirtualPeople

namespace Arena

/-- The indexes of the pending nodes. -/
def keys (a : Arena) : List UInt32 := a.pending.map (·.1)

/-- Pending nodes are listed, their indexes differ, and none of them is being built. -/
structure Lists (nodes : List NodeSpec) (a : Arena) : Prop where
  distinct : a.keys.Nodup
  found : ∀ p ∈ a.pending, listed nodes p.1 = some p.2
  apart : ∀ i ∈ a.keys, i ∉ a.building

variable {nodes : List NodeSpec} {a c : Arena} {i : UInt32} {n : NodeSpec}

theorem take_eq_ok :
    take i a = .ok n c ↔ i ∉ a.building ∧ a.pending.lookup i = some n ∧
      c = ⟨a.pending.filter (·.1 ≠ i), i :: a.building⟩ := by
  unfold take
  by_cases hb : i ∈ a.building
  · simp [hb]
  · rcases hl : a.pending.lookup i with _ | m
    · simp [hb]
    · simp [hb, eq_comm]

theorem keys_filter (h : a.keys.Nodup) (i : UInt32) (building : List UInt32) :
    keys ⟨a.pending.filter (·.1 ≠ i), building⟩ = a.keys.erase i := by
  rw [h.erase_eq_filter, keys, keys, List.filter_map]
  refine congrArg (List.map _) (List.filter_congr fun p _ => ?_)
  rw [Bool.eq_iff_iff]
  simp

/-- An arena that lists nodes gives out the listed node of an index and lists the others. -/
theorem Lists.of_take (h : a.Lists nodes) (ht : take i a = .ok n c) :
    listed nodes i = some n ∧ a.keys.Perm (i :: c.keys) ∧ c.Lists nodes ∧
      c.building = i :: a.building := by
  obtain ⟨hb, hl, rfl⟩ := take_eq_ok.1 ht
  have hmem : (i, n) ∈ a.pending := by
    obtain ⟨l₁, l₂, heq, -⟩ := List.lookup_eq_some_iff.1 hl
    rw [heq]
    exact List.mem_append_right l₁ List.mem_cons_self
  have hkey : i ∈ a.keys := List.mem_map_of_mem hmem
  have hkeys := keys_filter h.distinct i (i :: a.building)
  refine ⟨h.found (i, n) hmem, ?_, ⟨?_, fun p hp => ?_, fun j hj => ?_⟩, rfl⟩
  · rw [hkeys]
    exact List.perm_cons_erase hkey
  · rw [hkeys]
    exact h.distinct.erase i
  · exact h.found p (List.mem_of_mem_filter hp)
  · rw [hkeys, h.distinct.mem_erase_iff] at hj
    rw [List.mem_cons, not_or]
    exact ⟨hj.1, h.apart j hj.2⟩

theorem Lists.take_of_mem (h : a.Lists nodes) (hi : i ∈ a.keys) : ∃ n c, take i a = .ok n c := by
  rcases hl : a.pending.lookup i with _ | n
  · rw [List.lookup_eq_none_iff] at hl
    obtain ⟨p, hp, rfl⟩ := List.mem_map.1 hi
    simpa using hl p hp
  · exact ⟨n, _, take_eq_ok.2 ⟨h.apart i hi, hl, rfl⟩⟩

/-- A node that is built is no longer being built. -/
theorem Lists.done (h : c.Lists nodes) (hb : c.building = i :: a.building) :
    (c.done i).Lists nodes ∧ (c.done i).building = a.building ∧ (c.done i).keys = c.keys := by
  have hbuilding : (c.done i).building = a.building := by
    rw [Arena.done, hb, List.erase_cons_head]
  refine ⟨⟨h.distinct, h.found, fun j hj hc => h.apart j hj ?_⟩, hbuilding, rfl⟩
  rw [hbuilding] at hc
  exact hb ▸ List.mem_cons_of_mem i hc

theorem resolveTo_zero (i : UInt32) (s : Arena) (node : Node) (s' : Arena) :
    resolveTo 0 i s ≠ .ok node s' := by
  unfold resolveTo
  rcases take i s with ⟨n, t⟩ | ⟨err, t⟩ <;> simp

theorem resolveTo_succ {bound : Nat} {node : Node} :
    resolveTo (bound + 1) i a = .ok node c ↔
      ∃ n s t, take i a = .ok n s ∧ n.build (resolveTo bound) s = .ok node t ∧ c = t.done i := by
  simp only [resolveTo]
  rcases ht : take i a with ⟨n, s⟩ | ⟨err, s⟩
  · rcases hb : n.build (resolveTo bound) s with ⟨node', t⟩ | ⟨err, t⟩
    · simp only [hb, EStateM.Result.ok.injEq]
      constructor
      · rintro ⟨rfl, rfl⟩
        exact ⟨n, s, t, ⟨rfl, rfl⟩, hb, rfl⟩
      · rintro ⟨n', s', t', ⟨rfl, rfl⟩, hb', rfl⟩
        rw [hb] at hb'
        cases hb'
        exact ⟨rfl, rfl⟩
    · simp only [hb, reduceCtorEq, EStateM.Result.ok.injEq, false_iff]
      rintro ⟨n', s', t', ⟨rfl, rfl⟩, hb', -⟩
      rw [hb] at hb'
      cases hb'
  · simp

/-- Of the pending nodes some are taken out; what is being built stays. -/
structure Takes (nodes : List NodeSpec) (taken : List UInt32) (a c : Arena) : Prop where
  lists : c.Lists nodes
  building : c.building = a.building
  keys : a.keys.Perm (taken ++ c.keys)

theorem Takes.refl (h : a.Lists nodes) : Takes nodes [] a a := ⟨h, rfl, .refl _⟩

theorem Takes.trans {b : Arena} {first second : List UInt32} (h : Takes nodes first a b)
    (h' : Takes nodes second b c) : Takes nodes (first ++ second) a c := by
  refine ⟨h'.lists, h'.building.trans h.building, h.keys.trans ?_⟩
  rw [List.append_assoc]
  exact h'.keys.append_left first

theorem Takes.length_le {taken : List UInt32} (h : Takes nodes taken a c) :
    c.pending.length ≤ a.pending.length := by
  have hl := h.keys.length_eq
  simp only [Arena.keys, List.length_append, List.length_map] at hl
  omega

/-- An arena is used up when all that is pending is taken. -/
theorem Takes.pending_eq_nil {taken : List UInt32} (h : Takes nodes taken a c)
    (hk : a.keys.Perm taken) : c.pending = [] := by
  have hl := (hk.symm.trans h.keys).length_eq
  simp only [Arena.keys, List.length_append, List.length_map] at hl
  exact List.eq_nil_of_length_eq_zero (by omega)

section

variable {resolve resolve' : UInt32 → Build Node} {taken : UInt32 → List UInt32} {node : Node}

/-- If every reference takes something out of an arena and is resolved the same from another one,
so is a node. -/
theorem build_takes {r : Arena}
    (h : ∀ i {a c node}, a.Lists nodes → resolve i a = .ok node c →
      Takes nodes (taken i) a c ∧ resolve' i r = .ok node r)
    (ha : a.Lists nodes) (hb : n.build resolve a = .ok node c) :
    Takes nodes (n.references.flatMap taken) a c ∧ n.build resolve' r = .ok node r := by
  have hr : Follows resolve resolve' fun rest s t => t = r ∧
      ∃ done, n.references = done ++ rest ∧ Takes nodes (done.flatMap taken) a s := by
    rintro i rest s _ child s' ⟨rfl, done, heq, hdone⟩ hi
    obtain ⟨htakes, hi'⟩ := h i hdone.lists hi
    refine ⟨_, hi', rfl, done ++ [i], by simp [heq], ?_⟩
    rw [List.flatMap_append, List.flatMap_singleton]
    exact hdone.trans htakes
  obtain ⟨_, hb', rfl, done, heq, hdone⟩ :=
    NodeSpec.build_follow hr ⟨rfl, [], rfl, .refl ha⟩ hb
  rw [List.append_nil] at heq
  exact ⟨heq ▸ hdone, hb'⟩

/-- If every reference is resolved from an arena where what it takes is pending, a node is built
from one where what its references take is. -/
theorem build_of_pending {bound : Nat}
    (h : ∀ i {a tail node s s'}, a.Lists nodes → a.keys.Perm (taken i ++ tail) →
      a.pending.length ≤ bound → resolve i s = .ok node s' →
      ∃ c, resolve' i a = .ok node c ∧ Takes nodes (taken i) a c)
    {tail : List UInt32} {s s' : Arena} (ha : a.Lists nodes)
    (hp : a.keys.Perm (n.references.flatMap taken ++ tail)) (hl : a.pending.length ≤ bound)
    (hb : n.build resolve s = .ok node s') :
    ∃ c, n.build resolve' a = .ok node c ∧ Takes nodes (n.references.flatMap taken) a c := by
  have hr : Follows resolve resolve' fun rest _ t =>
      ∃ done, n.references = done ++ rest ∧ Takes nodes (done.flatMap taken) a t := by
    rintro i rest s t child s' ⟨done, heq, hdone⟩ hi
    have hpending : t.keys.Perm (taken i ++ (rest.flatMap taken ++ tail)) := by
      have hkeys := hdone.keys.symm.trans hp
      rw [heq, List.flatMap_append, List.append_assoc, List.flatMap_cons, List.append_assoc]
        at hkeys
      exact (List.perm_append_left_iff _).1 hkeys
    obtain ⟨c, hi', htakes⟩ := h i hdone.lists hpending (Nat.le_trans hdone.length_le hl) hi
    refine ⟨c, hi', done ++ [i], by simp [heq], ?_⟩
    rw [List.flatMap_append, List.flatMap_singleton]
    exact hdone.trans htakes
  obtain ⟨c, hb', done, heq, hdone⟩ :=
    NodeSpec.build_follow hr ⟨[], rfl, .refl ha⟩ hb
  rw [List.append_nil] at heq
  exact ⟨c, hb', heq ▸ hdone⟩

/-- What is resolved is built as following its references builds it, and its chain is taken out of
the arena. -/
theorem resolveTo_sound (r : Arena) :
    ∀ (bound : Nat) (i : UInt32) {a c : Arena} {node : Node}, a.Lists nodes →
      resolveTo bound i a = .ok node c →
      Takes nodes (chain nodes bound i) a c ∧ followTo nodes resolve bound i r = .ok node r
  | 0, i, a, c, node, _, h => (resolveTo_zero i a node c h).elim
  | bound + 1, i, a, c, node, ha, h => by
    obtain ⟨n, s, t, ht, hb, rfl⟩ := resolveTo_succ.1 h
    obtain ⟨hn, hkeys, hs, hbuilding⟩ := ha.of_take ht
    obtain ⟨htakes, hfollow⟩ := build_takes (resolveTo_sound r bound) hs hb
    obtain ⟨hd, hdb, hdk⟩ := htakes.lists.done (htakes.building.trans hbuilding)
    refine ⟨⟨hd, hdb, ?_⟩, by simp only [followTo, hn]; exact hfollow⟩
    rw [chain_succ hn, hdk, List.cons_append]
    exact hkeys.trans (.cons i htakes.keys)

/-- Where its chain is pending, an index is resolved to what following its references builds. -/
theorem resolveTo_complete (refuses : ∀ i s node s', resolve i s ≠ .ok node s') :
    ∀ (depth bound : Nat) (i : UInt32) {a : Arena} {tail : List UInt32} {node : Node}
      {s s' : Arena}, a.Lists nodes → a.keys.Perm (chain nodes depth i ++ tail) →
      a.pending.length ≤ bound → followTo nodes resolve depth i s = .ok node s' →
      ∃ c, resolveTo bound i a = .ok node c ∧ Takes nodes (chain nodes depth i) a c
  | 0, _, i, _, _, node, s, s', _, _, _, h => (refuses i s node s' h).elim
  | depth + 1, bound, i, a, tail, node, s, s', ha, hp, hl, h => by
    obtain ⟨n, hn, hb⟩ := followTo_succ refuses h
    rw [chain_succ hn, List.cons_append] at hp
    rw [chain_succ hn]
    have hi : i ∈ a.keys := hp.mem_iff.2 List.mem_cons_self
    obtain ⟨m, t, ht⟩ := ha.take_of_mem hi
    obtain ⟨hm, hkeys, hlt, hbuilding⟩ := ha.of_take ht
    obtain rfl : n = m := Option.some.inj (hn.symm.trans hm)
    have hlen : a.pending.length = t.pending.length + 1 := by
      simpa [Arena.keys] using hkeys.length_eq
    obtain ⟨bound, rfl⟩ : ∃ k, bound = k + 1 := ⟨bound - 1, by omega⟩
    have htail : t.keys.Perm (n.references.flatMap (chain nodes depth) ++ tail) :=
      (hkeys.symm.trans hp).cons_inv
    obtain ⟨c, hc, htakes⟩ := build_of_pending (resolveTo_complete refuses depth bound) hlt htail
      (by omega) hb
    obtain ⟨hd, hdb, hdk⟩ := htakes.lists.done (htakes.building.trans hbuilding)
    refine ⟨c.done i, resolveTo_succ.2 ⟨n, t, c, ht, hc, rfl⟩, hd, hdb, ?_⟩
    rw [hdk, List.cons_append]
    exact hkeys.trans (.cons i htakes.keys)

end

end Arena

end VirtualPeople
