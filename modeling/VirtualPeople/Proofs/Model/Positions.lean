import VirtualPeople.Proofs.Model.Flattening
import Mathlib.Algebra.BigOperators.Group.List.Basic
import Mathlib.Algebra.GroupWithZero.Nat

/-!
# Positions in a flattened list

What is flattened of a tree from a position on is a relation of its own (`NodeSpec.Laid`), by the
tree alone: the nodes below a node, segment by segment, and the node behind them. Each law of a
flattened list is proved on such a segment, and the whole list is one (`NodeSpec.flatten_shape`).
-/

namespace VirtualPeople

/-- The branches of a node. -/
def NodeSpec.edges (n : NodeSpec) : List EdgeSpec := (n.branch.map (·.edges)).getD []

mutual

/-- A node behind the nodes that it holds in branches, those of its children first. -/
def NodeSpec.outer : NodeSpec → List NodeSpec
  | ⟨name, index, debugInfo, none, population, stop⟩ =>
    [⟨name, index, debugInfo, none, population, stop⟩]
  | ⟨name, index, debugInfo, some b, population, stop⟩ =>
    b.outer ++ [⟨name, index, debugInfo, some b, population, stop⟩]

def BranchSpec.outer : BranchSpec → List NodeSpec
  | ⟨edges, _, _, _⟩ => edgesOuter edges

def edgesOuter : List EdgeSpec → List NodeSpec
  | [] => []
  | e :: rest => e.outer ++ edgesOuter rest

def EdgeSpec.outer : EdgeSpec → List NodeSpec
  | ⟨none, _, _, _⟩ => []
  | ⟨some child, _, _, _⟩ => child.outer

end

theorem NodeSpec.outer_eq : ∀ n : NodeSpec, n.outer = edgesOuter n.edges ++ [n]
  | ⟨_, _, _, none, _, _⟩ => rfl
  | ⟨_, _, _, some ⟨_, _, _, _⟩, _, _⟩ => rfl

mutual

/-- A tree without the indexes of its nodes, but for those in trees of updates. -/
def NodeSpec.unnumbered : NodeSpec → NodeSpec
  | ⟨name, _, debugInfo, none, population, stop⟩ =>
    ⟨name, none, debugInfo, none, population, stop⟩
  | ⟨name, _, debugInfo, some b, population, stop⟩ =>
    ⟨name, none, debugInfo, some b.unnumbered, population, stop⟩

def BranchSpec.unnumbered : BranchSpec → BranchSpec
  | ⟨edges, seed, updates, multiplicity⟩ => ⟨edgesUnnumbered edges, seed, updates, multiplicity⟩

def edgesUnnumbered : List EdgeSpec → List EdgeSpec
  | [] => []
  | e :: rest => e.unnumbered :: edgesUnnumbered rest

def EdgeSpec.unnumbered : EdgeSpec → EdgeSpec
  | ⟨none, index, chance, condition⟩ => ⟨none, index, chance, condition⟩
  | ⟨some child, index, chance, condition⟩ => ⟨some child.unnumbered, index, chance, condition⟩

end

/-- A branch with the node that is found in the place of its reference. -/
def EdgeSpec.graft (find : UInt32 → Option NodeSpec) (e : EdgeSpec) : EdgeSpec :=
  match e.childIndex.bind find with
  | some child => { e with child := some child, childIndex := none }
  | none => e

/-- A node with other branches, if it has any. -/
def NodeSpec.withEdges (n : NodeSpec) (edges : List EdgeSpec) : NodeSpec :=
  { n with branch := n.branch.map ({ · with edges }) }

/-- A node with the listed nodes in the place of the references of its branches, and of theirs, down
to a depth. Trees of updates are left as they are. -/
def NodeSpec.grown (nodes : List NodeSpec) : Nat → NodeSpec → NodeSpec
  | 0, n => n
  | depth + 1, n =>
    n.withEdges (n.edges.map (·.graft fun i => (listed nodes i).map (grown nodes depth)))

/-- An entry for a node: its index, and branches to its children's entries. -/
def NodeSpec.placed (n : NodeSpec) (index : Nat) (edges : List EdgeSpec) : NodeSpec :=
  { n.withEdges edges with index := some (.ofNat index) }

/-- Where branches become others, that refer to entries for their children, with the entries from a
position on: for every child those below it and then its own. -/
inductive Laid : Nat → List EdgeSpec → List EdgeSpec → List NodeSpec → Prop
  | nil {base : Nat} : Laid base [] [] []
  | cons {base : Nat} {child : NodeSpec} {below others : List NodeSpec}
      {rest edges edges' : List EdgeSpec} {chance : Option Float32}
      {condition : Option FilterSpec} :
      Laid base child.edges edges below →
      Laid (base + (below.length + 1)) rest edges' others →
      Laid base (⟨some child, none, chance, condition⟩ :: rest)
        (⟨none, some (.ofNat (base + below.length)), chance, condition⟩ :: edges')
        (below ++ child.placed (base + below.length) edges :: others)

theorem NodeSpec.flattenOnto_placed {n : NodeSpec} {done out : List NodeSpec} {i : UInt32} :
    n.flattenOnto done = .ok (out, i) ↔
      ∃ mid edges, flattenEdges done n.edges = .ok (mid, edges) ∧ mid.length < UInt32.size ∧
        i = .ofNat mid.length ∧ out = n.placed mid.length edges :: mid := by
  rcases n with ⟨name, index, debugInfo, _ | ⟨edges, seed, updates, multiplicity⟩, population, stop⟩
  · rw [flattenOnto_leaf]
    constructor
    · rintro ⟨hl, rfl, rfl⟩
      exact ⟨done, [], rfl, hl, rfl, rfl⟩
    · rintro ⟨mid, edges, hedges, hl, rfl, rfl⟩
      cases hedges
      exact ⟨hl, rfl, rfl⟩
  · rw [flattenOnto_branch]
    constructor
    · rintro ⟨mid, edges', hedges, hl, rfl, rfl⟩
      exact ⟨mid, edges', hedges, hl, rfl, rfl⟩
    · rintro ⟨mid, edges', hedges, hl, rfl, rfl⟩
      exact ⟨mid, edges', hedges, hl, rfl, rfl⟩

/-- Flattening branches onto a list lays them from its length on. -/
def Lays (done : List NodeSpec) (edges : List EdgeSpec) : Prop :=
  ∀ out edges', flattenEdges done edges = .ok (out, edges') ↔
    ∃ below, Laid done.length edges edges' below ∧
      done.length + below.length ≤ UInt32.size ∧ out = below.reverse ++ done

theorem length_onto (below done : List NodeSpec) :
    (below.reverse ++ done).length = done.length + below.length := by
  rw [List.length_append, List.length_reverse, Nat.add_comm]

theorem NodeSpec.flattenOnto_of_lays {n : NodeSpec} {done out : List NodeSpec} {i : UInt32}
    (h : Lays done n.edges) : n.flattenOnto done = .ok (out, i) ↔
      ∃ below edges, Laid done.length n.edges edges below ∧
        done.length + below.length < UInt32.size ∧ i = .ofNat (done.length + below.length) ∧
        out = n.placed (done.length + below.length) edges :: (below.reverse ++ done) := by
  simp only [NodeSpec.flattenOnto_placed, h _ _]
  constructor
  · rintro ⟨_, edges, ⟨below, hlaid, -, rfl⟩, hl, rfl, rfl⟩
    rw [length_onto] at hl ⊢
    exact ⟨below, edges, hlaid, hl, rfl, rfl⟩
  · rintro ⟨below, edges, hlaid, hl, rfl, rfl⟩
    refine ⟨_, edges, ⟨below, hlaid, Nat.le_of_lt hl, rfl⟩, ?_⟩
    rw [length_onto]
    exact ⟨hl, rfl, rfl⟩

mutual

/-- A node is flattened onto the entries that its branches are laid in. -/
theorem NodeSpec.flattenOnto_eq_ok : ∀ (n : NodeSpec) {done out : List NodeSpec} {i : UInt32},
    done.length ≤ UInt32.size → (n.flattenOnto done = .ok (out, i) ↔
      ∃ below edges, Laid done.length n.edges edges below ∧
        done.length + below.length < UInt32.size ∧ i = .ofNat (done.length + below.length) ∧
        out = n.placed (done.length + below.length) edges :: (below.reverse ++ done))
  | ⟨_, _, _, none, _, _⟩, _, _, _, hd => NodeSpec.flattenOnto_of_lays (lays [] hd)
  | ⟨_, _, _, some ⟨edges, _, _, _⟩, _, _⟩, _, _, _, hd =>
    NodeSpec.flattenOnto_of_lays (lays edges hd)

theorem lays : ∀ (edges : List EdgeSpec) {done : List NodeSpec},
    done.length ≤ UInt32.size → Lays done edges
  | [], done, hd => by
    intro out edges'
    constructor
    · rintro ⟨⟩
      exact ⟨[], .nil, hd, rfl⟩
    · rintro ⟨_, ⟨⟩, -, rfl⟩
      rfl
  | ⟨some child, none, chance, condition⟩ :: rest, done, hd => by
    intro out edges'
    have hlen (below : List NodeSpec) (entry : NodeSpec) :
        (entry :: (below.reverse ++ done)).length = done.length + (below.length + 1) := by
      rw [List.length_cons, length_onto, Nat.add_assoc]
    rw [flattenEdges_cons]
    simp only [flattenEdge_child]
    constructor
    · rintro ⟨mid, _, others', ⟨i, hchild, rfl⟩, hrest, rfl⟩
      obtain ⟨below, edges, hlaid, hl, rfl, rfl⟩ := (NodeSpec.flattenOnto_eq_ok child hd).1 hchild
      have hmid := hlen below (child.placed (done.length + below.length) edges)
      obtain ⟨others, hothers, hl', rfl⟩ := (lays rest (by omega) _ _).1 hrest
      rw [hmid] at hothers hl'
      refine ⟨_, .cons hlaid hothers, ?_, by simp⟩
      rw [List.length_append, List.length_cons]
      omega
    · rintro ⟨_, hlaid, hl, rfl⟩
      rcases hlaid with _ | @⟨_, _, below, others, _, edges, others', _, _, hlaid, hothers⟩
      have hmid := hlen below (child.placed (done.length + below.length) edges)
      rw [List.length_append, List.length_cons] at hl
      refine ⟨_, _, others', ⟨_, (NodeSpec.flattenOnto_eq_ok child hd).2
        ⟨below, edges, hlaid, by omega, rfl, rfl⟩, rfl⟩, ?_, rfl⟩
      refine (lays rest (by omega) _ _).2 ⟨others, ?_, by omega, by simp⟩
      rwa [hmid]
  | ⟨none, none, _, _⟩ :: rest, done, _ => by
    intro out edges'
    rw [flattenEdges_cons]
    refine iff_of_false ?_ nofun
    rintro ⟨_, _, _, h, -⟩
    exact invalidModel_ne_ok h
  | ⟨_, some _, _, _⟩ :: rest, done, _ => by
    intro out edges'
    rw [flattenEdges_cons]
    refine iff_of_false ?_ nofun
    rintro ⟨_, _, _, h, -⟩
    exact invalidModel_ne_ok h

end

/-- A branch holds its child and does not name it. -/
def EdgeSpec.Embeds (e : EdgeSpec) : Prop := e.childIndex = none ∧ e.child.isSome

theorem EdgeSpec.not_embeds_iff {e : EdgeSpec} :
    ¬ e.Embeds ↔ e.childIndex.isSome ∨ e.child = none := by
  rcases e with ⟨_ | child, _ | i, chance, condition⟩ <;> simp [Embeds]

mutual

theorem NodeSpec.exists_laid_iff : ∀ (n : NodeSpec) {base : Nat},
    (∃ edges below, Laid base n.edges edges below) ↔ ∀ m ∈ n.outer, ∀ e ∈ m.edges, e.Embeds
  | ⟨name, index, debugInfo, none, population, stop⟩, base =>
    iff_of_true ⟨[], [], .nil⟩ (List.forall_mem_singleton.2 nofun)
  | ⟨name, index, debugInfo, some ⟨edges, seed, updates, multiplicity⟩, population, stop⟩,
      base => by
    rw [NodeSpec.outer_eq, List.forall_mem_append, List.forall_mem_singleton, and_comm]
    exact laid_iff edges

/-- Branches are laid if they and those below them hold their children and name none. -/
theorem laid_iff : ∀ (edges : List EdgeSpec) {base : Nat},
    (∃ edges' below, Laid base edges edges' below) ↔
      (∀ e ∈ edges, e.Embeds) ∧ ∀ m ∈ edgesOuter edges, ∀ e ∈ m.edges, e.Embeds
  | [], base => iff_of_true ⟨[], [], .nil⟩ ⟨nofun, nofun⟩
  | ⟨some child, none, chance, condition⟩ :: rest, base => by
    rw [edgesOuter, List.forall_mem_cons, List.forall_mem_append]
    constructor
    · rintro ⟨_, _, hlaid⟩
      rcases hlaid with _ | ⟨hchild, hrest⟩
      obtain ⟨hedges, hbelow⟩ := (laid_iff rest).1 ⟨_, _, hrest⟩
      exact ⟨⟨⟨rfl, rfl⟩, hedges⟩, (NodeSpec.exists_laid_iff child).1 ⟨_, _, hchild⟩, hbelow⟩
    · rintro ⟨⟨-, hedges⟩, hchild, hbelow⟩
      obtain ⟨edges, below, hlaid⟩ : ∃ edges below, Laid base child.edges edges below :=
        (NodeSpec.exists_laid_iff child).2 hchild
      obtain ⟨edges', others, hothers⟩ :
          ∃ edges' others, Laid (base + (below.length + 1)) rest edges' others :=
        (laid_iff rest).2 ⟨hedges, hbelow⟩
      exact ⟨_, _, .cons hlaid hothers⟩
  | ⟨none, none, _, _⟩ :: rest, base =>
    iff_of_false (fun ⟨_, _, h⟩ => nomatch h) fun h => nomatch (List.forall_mem_cons.1 h.1).1.2
  | ⟨_, some _, _, _⟩ :: rest, base =>
    iff_of_false (fun ⟨_, _, h⟩ => nomatch h) fun h => nomatch (List.forall_mem_cons.1 h.1).1.1

end

/-- The position that the index made of it denotes. -/
theorem toNat_index {p : Nat} (hp : p < 2 ^ 32) :
    (some (UInt32.ofNat p)).map UInt32.toNat = some p :=
  congrArg some (UInt32.toNat_ofNat_of_lt' hp)

section

variable {base i : Nat} {n : NodeSpec} {edges edges' : List EdgeSpec} {below : List NodeSpec}

theorem NodeSpec.edges_placed (h : Laid base n.edges edges below) :
    (n.placed i edges).edges = edges := by
  rcases n with ⟨name, index, debugInfo, _ | b, population, stop⟩
  · cases h
    rfl
  · rfl

namespace Laid

/-- There is an entry for every node below the branches. -/
theorem length (h : Laid base edges edges' below) : below.length = (edgesOuter edges).length := by
  induction h with
  | nil => rfl
  | cons _ _ ihchild ihrest =>
    rw [edgesOuter, EdgeSpec.outer, NodeSpec.outer_eq]
    simp only [List.length_append, List.length_cons, List.length_nil]
    omega

theorem range'_split (base l l' : Nat) :
    List.range' base (l + (l' + 1)) =
      List.range' base l ++ (base + l) :: List.range' (base + (l + 1)) l' := by
  rw [← List.range'_append_1, List.range'_succ, Nat.add_assoc]

/-- Every position is referred to once, from the branches or from those of an entry. -/
theorem references (h : Laid base edges edges' below) :
    ((edges' ++ below.flatMap (·.edges)).map (·.childIndex)).Perm
      ((List.range' base below.length).map fun p => some (UInt32.ofNat p)) := by
  induction h with
  | nil => exact .nil
  | cons hchild _ ihchild ihrest =>
    rw [List.length_append, List.length_cons, range'_split, List.flatMap_append,
      List.flatMap_cons, NodeSpec.edges_placed hchild]
    refine List.perm_iff_count.2 fun a => ?_
    have hcountChild := ihchild.count_eq a
    have hcountRest := ihrest.count_eq a
    simp only [List.map_append, List.map_cons, List.count_append, List.count_cons]
      at hcountChild hcountRest ⊢
    omega

theorem positions (h : Laid base edges edges' below) (hbound : base + below.length ≤ 2 ^ 32) :
    ((edges' ++ below.flatMap (·.edges)).map (·.childIndex.map UInt32.toNat)).Perm
      ((List.range' base below.length).map some) := by
  have hperm := h.references.map (Option.map UInt32.toNat)
  rw [List.map_map, List.map_map] at hperm
  refine hperm.trans (List.Perm.of_eq (List.map_congr_left fun p hp => ?_))
  rw [List.mem_range'_1] at hp
  exact toNat_index (by omega)

theorem edgesSize_eq_zero (h : Laid base edges edges' below) : edgesSize edges' = 0 := by
  induction h with
  | nil => rfl
  | cons _ _ _ ihrest => rw [edgesSize, EdgeSpec.size, ihrest]

/-- What a node holds in branches is no longer held by its entry. -/
theorem size_placed (h : Laid base n.edges edges below) :
    (n.placed i edges).size + edgesSize n.edges = n.size := by
  have hzero := h.edgesSize_eq_zero
  rcases n with
    ⟨name, index, debugInfo, _ | ⟨es, seed, _ | updates, multiplicity⟩, population, stop⟩
  · rfl
  · change 1 + edgesSize edges + edgesSize es = 1 + edgesSize es
    omega
  · change 1 + (edgesSize edges + updatesSize updates) + edgesSize es =
      1 + (edgesSize es + updatesSize updates)
    omega

theorem size (h : Laid base edges edges' below) : (below.map (·.size)).sum = edgesSize edges := by
  induction h with
  | nil => rfl
  | @cons base child below others rest edges edges' _ _ hchild _ ihchild ihrest =>
    have hsize := hchild.size_placed (i := base + below.length)
    rw [List.map_append, List.sum_append, List.map_cons, List.sum_cons, ihchild, ihrest,
      edgesSize, EdgeSpec.size]
    omega

/-- Branches and the branches of entries hold no child and refer to a smaller position. -/
theorem pointing (h : Laid base edges edges' below) :
    (∀ e ∈ edges', e.child = none ∧ ∃ q < base + below.length, e.childIndex = some (.ofNat q)) ∧
      ∀ m ∈ below, ∃ p < base + below.length, m.index = some (.ofNat p) ∧
        ∀ e ∈ m.edges, e.child = none ∧ ∃ q < p, e.childIndex = some (.ofNat q) := by
  induction h with
  | nil => exact ⟨nofun, nofun⟩
  | @cons base child below others rest edges edges' _ _ hchild _ ihchild ihrest =>
    rw [List.length_append, List.length_cons, List.forall_mem_cons, List.forall_mem_append,
      List.forall_mem_cons, NodeSpec.edges_placed hchild]
    refine ⟨⟨⟨rfl, _, by omega, rfl⟩, fun e he => ?_⟩, fun m hm => ?_,
      ⟨_, by omega, rfl, ihchild.1⟩, fun m hm => ?_⟩
    · obtain ⟨hnone, q, hq, hindex⟩ := ihrest.1 e he
      exact ⟨hnone, q, by omega, hindex⟩
    · obtain ⟨p, hp, hm⟩ := ihchild.2 m hm
      exact ⟨p, by omega, hm⟩
    · obtain ⟨p, hp, hm⟩ := ihrest.2 m hm
      exact ⟨p, by omega, hm⟩

theorem unnumbered_withEdges (h : edgesUnnumbered edges = edgesUnnumbered n.edges) :
    (n.withEdges edges).unnumbered = n.unnumbered := by
  rcases n with ⟨name, index, debugInfo, _ | ⟨es, seed, updates, multiplicity⟩, population, stop⟩
  · rfl
  · change NodeSpec.mk name none debugInfo
      (some ⟨edgesUnnumbered edges, seed, updates, multiplicity⟩) population stop = _
    rw [h]
    rfl

/-- An entry with other entries in the place of its references is the node that it is for, if its
branches are those of the node then. -/
theorem grown_placed {nodes : List NodeSpec} {depth : Nat} (h : Laid base n.edges edges below)
    (hedges : edgesUnnumbered (edges.map (·.graft fun i => (listed nodes i).map
      (.grown nodes depth))) = edgesUnnumbered n.edges) :
    ((n.placed i edges).grown nodes (depth + 1)).unnumbered = n.unnumbered := by
  have hgrown := unnumbered_withEdges hedges
  rw [NodeSpec.grown, NodeSpec.edges_placed h, ← hgrown]
  rcases n with ⟨name, index, debugInfo, _ | b, population, stop⟩
  · rfl
  · rfl

/-- With entries in the place of their references, branches are what they were, and entries are the
nodes that they are for. -/
theorem grown {nodes : List NodeSpec} (h : Laid base edges edges' below) :
    Found nodes below → ∀ depth ≥ below.length,
      edgesUnnumbered (edges'.map (·.graft fun i => (listed nodes i).map (.grown nodes depth))) =
        edgesUnnumbered edges ∧
      below.map (fun m => (m.grown nodes depth).unnumbered) =
        (edgesOuter edges).map (·.unnumbered) := by
  induction h with
  | nil => exact fun _ _ _ => ⟨rfl, rfl⟩
  | @cons base child below others rest edges edges' chance condition hchild _ ihchild ihrest =>
    intro hfound depth hdepth
    rw [List.length_append, List.length_cons] at hdepth
    obtain ⟨depth, rfl⟩ : ∃ d, depth = d + 1 := ⟨depth - 1, by omega⟩
    obtain ⟨hbelow, hentries⟩ := List.forall_mem_append.1 hfound
    obtain ⟨hentry, hothers⟩ := List.forall_mem_cons.1 hentries
    have hroot := hchild.grown_placed (i := base + below.length)
      (ihchild hbelow depth (by omega)).1
    obtain ⟨hrest, hrestEntries⟩ := ihrest hothers (depth + 1) (by omega)
    constructor
    · rw [List.map_cons, edgesUnnumbered, edgesUnnumbered, hrest]
      congr 1
      simp only [EdgeSpec.graft, Option.bind_some, hentry _ rfl, Option.map_some]
      rw [EdgeSpec.unnumbered, EdgeSpec.unnumbered, hroot]
    · rw [edgesOuter, EdgeSpec.outer, NodeSpec.outer_eq, List.map_append, List.map_append,
        List.map_append, List.map_cons, hroot, hrestEntries,
        (ihchild hbelow (depth + 1) (by omega)).2, List.append_assoc]
      rfl

end Laid

end

/-! ## The whole list -/

/-- What is known of the list of a tree: the entries are for the nodes outside trees of updates, in
their order, under their positions. -/
structure NodeSpec.FlatShape (root : NodeSpec) (nodes : List NodeSpec) : Prop where
  length : nodes.length = root.outer.length
  indexed : ∀ p (h : p < nodes.length), nodes[p].index.map UInt32.toNat = some p
  earlier : ∀ p (h : p < nodes.length), ∀ e ∈ nodes[p].edges,
    e.child = none ∧ ∃ q < p, e.childIndex.map UInt32.toNat = some q
  once : ∀ p, p + 1 < nodes.length →
    (nodes.flatMap (·.edges)).countP (·.childIndex.map UInt32.toNat == some p) = 1
  root_last : ∃ below entry, nodes = below ++ [entry] ∧
    ∀ depth ≥ nodes.length, (entry.grown nodes depth).unnumbered = root.unnumbered
  regrown : ∀ depth ≥ nodes.length,
    nodes.map (fun n => (n.grown nodes depth).unnumbered) = root.outer.map (·.unnumbered)
  size : (nodes.map (·.size)).sum = root.size

theorem NodeSpec.size_pos (n : NodeSpec) : 0 < n.size := by
  rcases n with ⟨_, _, _, _ | b, _, _⟩
  · exact Nat.one_pos
  · rw [NodeSpec.size]
    omega

section

variable {root : NodeSpec} {edges : List EdgeSpec} {below : List NodeSpec}

/-- A branch to the root alone is laid in the whole list. -/
theorem Laid.whole (h : Laid 0 root.edges edges below) :
    Laid 0 [⟨some root, none, none, none⟩]
      [⟨none, some (.ofNat (0 + below.length)), none, none⟩]
      (below ++ [root.placed (0 + below.length) edges]) :=
  .cons h .nil

theorem Laid.length_le_size (h : Laid 0 root.edges edges below) : below.length + 1 ≤ root.size := by
  have hsum : (((below ++ [root.placed (0 + below.length) edges]).map (·.size)).sum) = root.size :=
    h.whole.size
  have hle := List.length_le_sum_of_one_le
    ((below ++ [root.placed (0 + below.length) edges]).map (·.size)) fun k hk => by
      obtain ⟨m, -, rfl⟩ := List.mem_map.1 hk
      exact m.size_pos
  rwa [hsum, List.length_map, List.length_append, List.length_singleton] at hle

namespace NodeSpec

/-- A tree is flattened to the entries that its branches are laid in, and its own. -/
theorem flatten_eq_ok_iff (hsize : root.size < 2 ^ 32) {nodes : List NodeSpec} :
    root.flatten = .ok nodes ↔
      ∃ edges below, Laid 0 root.edges edges below ∧
        nodes = below ++ [root.placed (0 + below.length) edges] := by
  have hroot (out : List NodeSpec) (i : UInt32) :=
    @NodeSpec.flattenOnto_eq_ok root [] out i (Nat.zero_le _)
  simp only [flatten_eq_ok, hroot]
  constructor
  · rintro ⟨_, _, ⟨below, edges, h, -, -, rfl⟩, rfl⟩
    exact ⟨edges, below, h, by simp⟩
  · rintro ⟨edges, below, h, rfl⟩
    have hlen := h.length_le_size
    have hmax : UInt32.size = 2 ^ 32 := rfl
    exact ⟨_, _, ⟨below, edges, h, by simp; omega, rfl, rfl⟩, by simp⟩

theorem flatten_eq_error_iff (hsize : root.size < 2 ^ 32) :
    (∃ err, root.flatten = .error err) ↔
      ∃ n ∈ root.outer, ∃ e ∈ n.edges, e.childIndex.isSome ∨ e.child = none := by
  have hok : (∃ nodes, root.flatten = .ok nodes) ↔ ∀ n ∈ root.outer, ∀ e ∈ n.edges, e.Embeds := by
    rw [← root.exists_laid_iff]
    simp only [flatten_eq_ok_iff hsize]
    constructor
    · rintro ⟨_, edges, below, h, -⟩
      exact ⟨edges, below, h⟩
    · rintro ⟨edges, below, h⟩
      exact ⟨_, edges, below, h, rfl⟩
  rw [exists_error_iff, hok]
  simp only [not_forall, exists_prop, EdgeSpec.not_embeds_iff]

theorem flatShape_of_laid {nodes : List NodeSpec} (hsize : root.size < 2 ^ 32)
    (h : Laid 0 root.edges edges below)
    (hnodes : nodes = below ++ [root.placed (0 + below.length) edges])
    (hindexes : nodes.map (·.index) = (List.range nodes.length).map fun p => some (.ofNat p))
    (hfound : Found nodes nodes) : root.FlatShape nodes := by
  have hwhole := h.whole
  rw [← hnodes] at hwhole
  have hlength : nodes.length = below.length + 1 := by
    rw [hnodes, List.length_append, List.length_singleton]
  have hlt : nodes.length < 2 ^ 32 := hlength ▸ Nat.lt_of_le_of_lt h.length_le_size hsize
  have hindex (p : Nat) (hp : p < nodes.length) : nodes[p].index = some (.ofNat p) := by
    have hget := congrArg (·[p]?) hindexes
    simpa [hp] using hget
  constructor
  · simpa [edgesOuter, EdgeSpec.outer] using hwhole.length
  · intro p hp
    rw [hindex p hp, toNat_index (Nat.lt_trans hp hlt)]
  · intro p hp e he
    obtain ⟨p', hp', hindex', hedges⟩ := hwhole.pointing.2 nodes[p] (List.getElem_mem hp)
    obtain rfl : p = p' := by
      have heq := congrArg (Option.map UInt32.toNat) ((hindex p hp).symm.trans hindex')
      rw [toNat_index (by omega), toNat_index (by omega)] at heq
      exact Option.some.inj heq
    obtain ⟨hchild, q, hq, hreference⟩ := hedges e he
    exact ⟨hchild, q, hq, by rw [hreference, toNat_index (by omega)]⟩
  · intro p hp
    have hmem : p ∈ List.range' 0 nodes.length := List.mem_range'_1.2 (by omega)
    have hnodup : ((List.range' 0 nodes.length).map some).Nodup :=
      List.Nodup.map (fun _ _ => Option.some.inj) List.nodup_range'
    have hcount := (hwhole.positions (by omega)).count_eq (some p)
    rw [List.count_eq_one_of_mem hnodup (List.mem_map_of_mem hmem), List.singleton_append,
      List.map_cons, toNat_index (by omega), List.count_cons_of_ne (by simp; omega), List.count,
      List.countP_map] at hcount
    exact hcount
  · refine ⟨below, _, hnodes, fun depth hdepth => ?_⟩
    obtain ⟨depth, rfl⟩ : ∃ d, depth = d + 1 := ⟨depth - 1, by omega⟩
    have hbelow : Found nodes below := fun n hn => hfound n (hnodes ▸ List.mem_append_left _ hn)
    exact h.grown_placed (h.grown hbelow depth (by omega)).1
  · intro depth hdepth
    simpa [edgesOuter, EdgeSpec.outer] using (hwhole.grown hfound depth hdepth).2
  · simpa [edgesSize, EdgeSpec.size] using hwhole.size

/-- A tree is flattened unless a branch names its child or has none, and then its list has the
shape of the tree. -/
theorem flatten_shape (root : NodeSpec) (hsize : root.size < 2 ^ 32) :
    ((∃ err, root.flatten = .error err) ↔
      ∃ n ∈ root.outer, ∃ e ∈ n.edges, e.childIndex.isSome ∨ e.child = none) ∧
    ∀ nodes, root.flatten = .ok nodes → root.FlatShape nodes := by
  refine ⟨flatten_eq_error_iff hsize, fun nodes h => ?_⟩
  obtain ⟨edges, below, hlaid, hnodes⟩ := (flatten_eq_ok_iff hsize).1 h
  obtain ⟨out, i, hout, rfl⟩ := flatten_eq_ok.1 h
  have hnumbered : Numbered out := (NodeSpec.flattenOnto_balanced root hout).2.2 rfl
  have hfound : Found out.reverse out := (flattened hout).2.2.1
  refine flatShape_of_laid hsize hlaid hnodes ?_ fun n hn => hfound n (List.mem_reverse.1 hn)
  rw [hnumbered, List.length_reverse]

theorem flatten_shape_twoLeaves :
    Node.twoLeaves.size < 2 ^ 32 ∧ ∃ nodes, Node.twoLeaves.flatten = .ok nodes ∧
      nodes.length = 3 ∧ Node.twoLeaves.FlatShape nodes := by
  have hsize : Node.twoLeaves.size < 2 ^ 32 := by decide
  obtain ⟨nodes, hnodes⟩ : ∃ nodes, Node.twoLeaves.flatten = .ok nodes := ⟨_, rfl⟩
  have hshape := (flatten_shape Node.twoLeaves hsize).2 nodes hnodes
  exact ⟨hsize, nodes, hnodes, hshape.length, hshape⟩

end NodeSpec

end

end VirtualPeople
