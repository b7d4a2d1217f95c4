import VirtualPeople.Labeler
import VirtualPeople.Proofs.Labeling.Internal

/-!
# Models that go by chance alone

Where every branch selects by chance and nothing is done to the event on the way, the event that an
input becomes goes down to one leaf of the written model (`Leads`), and the leaf, which finds
neither activities nor labels, assigns a person of its pools or nobody. So labeling never fails
(`Labeler.label_of_chances`).
-/

namespace VirtualPeople

mutual

/-- Every branch of a node, at any depth, has a chance, and no branching node does anything before
it selects a child. -/
def NodeSpec.ByChance : NodeSpec → Prop
  | ⟨_, _, _, none, _, _⟩ => True
  | ⟨_, _, _, some b, _, _⟩ => b.ByChance

def BranchSpec.ByChance : BranchSpec → Prop
  | ⟨edges, _, updates, multiplicity⟩ =>
    edgesByChance edges ∧ updates.getD [] = [] ∧ multiplicity = none

def edgesByChance : List EdgeSpec → Prop
  | [] => True
  | e :: rest => e.ByChance ∧ edgesByChance rest

def EdgeSpec.ByChance : EdgeSpec → Prop
  | ⟨none, _, chance, _⟩ => chance.isSome
  | ⟨some child, _, chance, _⟩ => chance.isSome ∧ child.ByChance

end

/-- The child that a branch holds, or the listed node that it refers to. -/
def EdgeSpec.target (nodes : List NodeSpec) (e : EdgeSpec) : Option NodeSpec :=
  match e.child with
  | some child => some child
  | none => e.childIndex.bind (listed nodes)

/-- The path that is selected for an event leads down from a node to a leaf. -/
inductive Leads (nodes : List NodeSpec) (e : Event) : NodeSpec → NodeSpec → Prop
  | here {n : NodeSpec} (h : n.branch = none) : Leads nodes e n n
  | down {n child leaf : NodeSpec} {b : BranchSpec} {selector : Selector} {i : Nat}
    {edge : EdgeSpec} (hb : n.branch = some b)
    (hselector : BranchSpec.selector b.edges b.seed = .ok selector)
    (hi : selector.select e = .ok i) (hedge : b.edges[i]? = some edge)
    (hchild : edge.target nodes = some child) (h : Leads nodes e child leaf) : Leads nodes e n leaf

theorem Leads.unique {nodes : List NodeSpec} {e : Event} {n leaf leaf' : NodeSpec}
    (h : Leads nodes e n leaf) (h' : Leads nodes e n leaf') : leaf = leaf' := by
  induction h with
  | here hb =>
    cases h' with
    | here => rfl
    | down hb' =>
      rw [hb] at hb'
      cases hb'
  | down hb hselector hi hedge hchild _ ih =>
    cases h' with
    | here hb' =>
      rw [hb] at hb'
      cases hb'
    | down hb' hselector' hi' hedge' hchild' h' =>
      obtain rfl := Option.some.inj (hb.symm.trans hb')
      obtain rfl := Except.ok.inj (hselector.symm.trans hselector')
      obtain rfl := Except.ok.inj (hi.symm.trans hi')
      obtain rfl := Option.some.inj (hedge.symm.trans hedge')
      obtain rfl := Option.some.inj (hchild.symm.trans hchild')
      exact ih h'

/-- What a leaf may assign: nothing from the empty pool, and otherwise an id of one of its pools. -/
def PopulationSpec.Gives (p : PopulationSpec) (id : Option Int64) : Prop :=
  if p.pools = [⟨0, 0⟩] then id = none
  else ∃ i : Int64, id = some i ∧ ∃ pool ∈ p.pools, pool.Has i.toInt

/-- The people that a leaf answers with: nobody at a stop, and one person otherwise. -/
inductive NodeSpec.Answers (leaf : NodeSpec) : List Activity → Prop
  | stop (h : leaf.population = none) (hstop : leaf.stop.isSome) : Answers leaf []
  | person {p : PopulationSpec} {person : Activity} (h : leaf.population = some p)
    (hstop : leaf.stop = none) (hid : p.Gives person.personId) : Answers leaf [person]

/-- An id is kept as it is in a signed word. -/
theorem IdSpace.has_toInt_personId {pools : List Pool} {ids : IdSpace}
    (h : IdSpace.ofPools pools = .ok ids) (seed : UInt64) :
    ∃ pool ∈ pools, pool.Has (Int64.ofInt (ids.personId seed)).toInt := by
  obtain ⟨pool, hpool, hid⟩ := IdSpace.has_personId h seed
  have hle := IdSpace.le_maxId_of_layOut (IdSpace.ofPools_eq_ok h).1 pool hpool _ hid
  have hnonneg : 0 ≤ ids.personId seed := (Int.natCast_nonneg _).trans hid.1
  have hmax : ((IdSpace.maxId : Nat) : Int) = 2 ^ 63 - 1 := rfl
  refine ⟨pool, hpool, ?_⟩
  rwa [Int64.toInt_ofInt_of_le (by omega) (by omega)]

theorem PopulationSpec.gives_of_build {p : PopulationSpec} {built : Population}
    (h : p.build = .ok built) (print : UInt64) : p.Gives (built.personId print) := by
  unfold PopulationSpec.build at h
  unfold PopulationSpec.Gives
  simp only at h
  split_ifs at h ⊢ with hempty
  · obtain rfl := pure_eq_ok.1 h
    rfl
  · simp only [bind_eq_ok, pure_eq_ok] at h
    obtain ⟨ids, hids, rfl⟩ := h
    exact ⟨_, rfl, IdSpace.has_toInt_personId hids _⟩

/-- An event that has no activities and nothing that a leaf makes a label of. -/
structure Event.Fresh (e : Event) : Prop where
  activities : Event.activities e = []
  label : Event.label e = none
  quantumLabels : Event.quantumLabels e = none

theorem Event.fresh_ofInput (input : LabelerInput) : (Event.ofInput input).Fresh := ⟨rfl, rfl, rfl⟩

theorem Population.apply_of_fresh (leaf : Population) {e : Event} (he : e.Fresh) :
    leaf.apply e = .ok (e.withActivities [(leaf.personId e.fingerprint, none, ())]) := by
  have hlabel (id : Option Int64) : Population.label e id = .ok none := by
    unfold Population.label
    rw [he.label, he.quantumLabels]
    rfl
  have hassigned : leaf.assigned e = .ok (.ofPerson (leaf.personId e.fingerprint) none) := by
    rw [Population.assigned_of_empty he.activities, hlabel]
    rfl
  refine Population.apply_eq_ok_iff_assigned.2 ⟨_, hassigned, ?_⟩
  rw [he.activities]
  rfl

theorem chance_of_byChance {e : EdgeSpec} (h : e.ByChance) : e.chance.isSome := by
  rcases e with ⟨_ | child, index, chance, condition⟩
  · exact h
  · exact h.1

/-- Branches that have chances are selected by chance, whatever the event. -/
theorem select_of_byChance {edges : List EdgeSpec} (hc : edgesByChance edges)
    {seed : Option String} {s : Selector} (h : BranchSpec.selector edges seed = .ok s) (e : Event) :
    ∃ i < edges.length, s.select e = .ok i := by
  have hs : ∃ i, s.select e = .ok i := by
    simp only [BranchSpec.selector, bind_eq_ok] at h
    obtain ⟨selectors, hselectors, h⟩ := h
    have hall := forall₂_of_mapM hselectors
    split at h
    · cases hall with
      | @cons edge _ _ _ hedge _ =>
        obtain ⟨chance, hchance⟩ := Option.isSome_iff_exists.1 (chance_of_byChance hc.1)
        rw [EdgeSpec.selector, hchance] at hedge
        rcases hcondition : edge.condition with _ | condition
        · rw [hcondition] at hedge
          cases hedge
        · rw [hcondition] at hedge
          exact (invalidModel_ne_ok hedge).elim
    · simp only [bind_eq_ok, pure_eq_ok] at h
      obtain ⟨chances, -, d, -, rfl⟩ := h
      exact ⟨_, rfl⟩
  obtain ⟨i, hi⟩ := hs
  exact ⟨i, Selector.select_lt h hi, hi⟩

theorem applyAt_of_getElem? : ∀ {children : List Node} {i : Nat} {child : Node},
    children[i]? = some child → applyAt children i = child.apply
  | [], _, _, h => by cases h
  | _ :: _, 0, _, h => by
    cases h
    rfl
  | _ :: rest, i + 1, child, h => by
    rw [applyAt]
    exact applyAt_of_getElem? (by simpa using h)

/-- A run of a built node leaves the people that the leaf answers with to which the written node
leads. -/
def Serves (nodes : List NodeSpec) (e : Event) (n : NodeSpec) (node : Node) : Prop :=
  ∃ leaf out, Leads nodes e n leaf ∧ node.apply e = .ok () out ∧
    leaf.Answers (Event.activities out)

section

variable {nodes : List NodeSpec} {e : Event} {resolve : UInt32 → Build Node}

/-- A branching node serves where its children do. -/
theorem serves_of_children {n : NodeSpec} {edges : List EdgeSpec} {seed : Option String}
    {updates : Option (List UpdateSpec)} {multiplicity : Option MultiplicitySpec} {name : String}
    {index : Option UInt32} {fromBuilder : Bool} {children : List Node} {selector : Selector}
    {action : Action} (hb : n.branch = some ⟨edges, seed, updates, multiplicity⟩)
    (hc : edgesByChance edges) (hselector : BranchSpec.selector edges seed = .ok selector)
    (hchildren : List.Forall₂ (fun edge child =>
      ∃ m, EdgeSpec.target nodes edge = some m ∧ Serves nodes e m child) edges children)
    (haction : (NodeKind.branch children selector action).apply e = descend children selector e) :
    Serves nodes e n ⟨name, index, fromBuilder, .branch children selector action⟩ := by
  obtain ⟨i, hlt, hi⟩ := select_of_byChance hc hselector e
  have hlt' : i < children.length := hchildren.length_eq ▸ hlt
  obtain ⟨m, htarget, leaf, out, hleads, hrun, hanswers⟩ := hchildren.get hlt hlt'
  refine ⟨leaf, out, .down hb hselector hi (List.getElem?_eq_getElem hlt) htarget hleads, ?_,
    hanswers⟩
  rw [Node.apply, haction]
  unfold descend
  rw [hi]
  simp only
  rw [applyAt_of_getElem? (List.getElem?_eq_getElem hlt')]
  exact hrun

mutual

theorem NodeSpec.build_serves (he : e.Fresh) (hr : ∀ j s node s', resolve j s = .ok node s' →
      ∃ n, listed nodes j = some n ∧ Serves nodes e n node) :
    ∀ (n : NodeSpec) {s node s'}, n.ByChance → n.build resolve s = .ok node s' →
      Serves nodes e n node
  | ⟨name, index, debugInfo, none, none, stop⟩, s, node, s', _, h => by
    simp only [NodeSpec.build, Build.bind_eq_ok, Build.of_eq_ok, Build.pure_eq_ok] at h
    obtain ⟨sort, _, ⟨hsort, -⟩, rfl, -⟩ := h
    refine ⟨_, e, .here rfl, rfl, ?_⟩
    rw [he.activities]
    rcases stop with _ | t
    · exact (invalidModel_ne_ok hsort).elim
    · exact .stop rfl rfl
  | ⟨name, index, debugInfo, none, some p, stop⟩, s, node, s', _, h => by
    simp only [NodeSpec.build, Build.bind_eq_ok, Build.of_eq_ok, Build.pure_eq_ok] at h
    obtain ⟨sort, _, ⟨hsort, -⟩, leaf, _, ⟨hp, -⟩, rfl, -⟩ := h
    have hrun : (NodeKind.population leaf).apply e
        = .ok () (e.withActivities [(leaf.personId e.fingerprint, none, ())]) := by
      rw [NodeKind.apply, Labeling.change, leaf.apply_of_fresh he]
    refine ⟨_, _, .here rfl, hrun, ?_⟩
    rcases stop with _ | t
    · exact .person rfl rfl (PopulationSpec.gives_of_build hp _)
    · exact (invalidModel_ne_ok hsort).elim
  | ⟨name, index, debugInfo, some ⟨edges, seed, none, multiplicity⟩, population, stop⟩, _, _, _,
      hc, h => by
    obtain ⟨hedges, -, rfl⟩ := hc
    obtain ⟨-, kind, hb, rfl⟩ := NodeSpec.build_branch.1 h
    obtain ⟨-, children, t, selector, action, hchildren, hselector, ha, rfl⟩ :=
      BranchSpec.build_eq_ok.1 hb
    obtain ⟨rfl, -⟩ := Build.pure_eq_ok.1 ha
    have hserved := buildChildren_serves he hr edges hedges hchildren
    exact serves_of_children rfl hedges hselector hserved rfl
  | ⟨name, index, debugInfo, some ⟨edges, seed, some us, multiplicity⟩, population, stop⟩, _, _, _,
      hc, h => by
    obtain ⟨hedges, rfl, rfl⟩ := hc
    obtain ⟨-, kind, hb, rfl⟩ := NodeSpec.build_branch.1 h
    obtain ⟨-, children, t, selector, action, hchildren, hselector, ha, rfl⟩ :=
      BranchSpec.build_eq_ok.1 hb
    obtain ⟨updates, _, hu, ha⟩ := Build.bind_eq_ok.1 ha
    obtain ⟨rfl, -⟩ := Build.pure_eq_ok.1 hu
    obtain ⟨rfl, -⟩ := Build.pure_eq_ok.1 ha
    have hserved := buildChildren_serves he hr edges hedges hchildren
    exact serves_of_children rfl hedges hselector hserved rfl

theorem buildChildren_serves (he : e.Fresh) (hr : ∀ j s node s', resolve j s = .ok node s' →
      ∃ n, listed nodes j = some n ∧ Serves nodes e n node) :
    ∀ (es : List EdgeSpec) {s children s'}, edgesByChance es →
      buildChildren resolve es s = .ok children s' →
      List.Forall₂ (fun edge child =>
        ∃ m, EdgeSpec.target nodes edge = some m ∧ Serves nodes e m child) es children
  | [], _, _, _, _, h => by
    obtain ⟨rfl, -⟩ := Build.pure_eq_ok.1 h
    exact .nil
  | edge :: es, _, _, _, hc, h => by
    obtain ⟨child, t, others, hchild, ho, rfl⟩ := buildChildren_cons.1 h
    exact .cons (EdgeSpec.buildChild_serves he hr edge hc.1 hchild)
      (buildChildren_serves he hr es hc.2 ho)

theorem EdgeSpec.buildChild_serves (he : e.Fresh)
    (hr : ∀ j s node s', resolve j s = .ok node s' →
      ∃ n, listed nodes j = some n ∧ Serves nodes e n node) :
    ∀ (edge : EdgeSpec) {s child s'}, edge.ByChance → edge.buildChild resolve s = .ok child s' →
      ∃ m, edge.target nodes = some m ∧ Serves nodes e m child
  | ⟨none, some i, _, _⟩, s, child, s', _, h => hr i s child s' h
  | ⟨some n, none, _, _⟩, _, _, _, hc, h => ⟨n, rfl, NodeSpec.build_serves he hr n hc.2 h⟩
  | ⟨none, none, _, _⟩, _, _, _, _, h => (Build.fail_ne_ok h).elim
  | ⟨some _, some _, _, _⟩, _, _, _, _, h => (Build.fail_ne_ok h).elim

end

theorem followTo_serves (he : e.Fresh) (hc : ∀ n ∈ nodes, n.ByChance)
    (refuses : ∀ i s node s', ¬ resolve i s = .ok node s') :
    ∀ (depth : Nat) (j : UInt32) (s : Arena) (node : Node) (s' : Arena),
      followTo nodes resolve depth j s = .ok node s' →
      ∃ n, listed nodes j = some n ∧ Serves nodes e n node
  | 0, j, s, node, s', h => (refuses j s node s' h).elim
  | depth + 1, j, s, node, s', h => by
    obtain ⟨n, hn, hb⟩ := followTo_succ refuses h
    exact ⟨n, hn, n.build_serves he (followTo_serves he hc refuses depth)
      (hc n (mem_of_listed hn).1) hb⟩

end

/-- An input is labeled, with the people that the one leaf answers with to which its event is led
from the root. -/
def LabeledBy (nodes : List NodeSpec) (root : NodeSpec) (l : Labeler) (input : LabelerInput) :
    Prop :=
  ∃ leaf, (∀ n, Leads nodes (Event.ofInput input) root n ↔ n = leaf) ∧
    ∃ out, l.label input = .ok out ∧ leaf.Answers out.people

theorem LabeledBy.of_serves {nodes : List NodeSpec} {root : NodeSpec} {node : Node} {trace : Bool}
    {input : LabelerInput} (h : Serves nodes (Event.ofInput input) root node) :
    LabeledBy nodes root ⟨node, trace⟩ input := by
  obtain ⟨leaf, out, hleads, hrun, hanswers⟩ := h
  refine ⟨leaf, fun n => ⟨fun hn => hn.unique hleads, fun hn => hn ▸ hleads⟩, ?_⟩
  unfold Labeler.label
  rw [hrun]
  exact ⟨_, rfl, hanswers⟩

namespace Labeler

/-- A model that goes by chance alone labels every input: with nobody if the selected path ends in a
stop, and otherwise with one person of the pools of the leaf there. -/
theorem label_of_chances (trace : Bool) (input : LabelerInput) :
    (∀ root node, root.ByChance → Node.ofRoot root = .ok node →
      LabeledBy [] root ⟨node, trace⟩ input) ∧
    ∀ nodes node, (∀ n ∈ nodes, n.ByChance) → Node.ofNodes nodes = .ok node →
      ∃ root, Attached nodes root ∧ LabeledBy nodes root ⟨node, trace⟩ input := by
  have he := Event.fresh_ofInput input
  constructor
  · intro root node hc h
    obtain ⟨s, hb⟩ := Node.ofRoot_eq_ok.1 h
    refine .of_serves (root.build_serves he ?_ hc hb)
    intro j t child t' hj
    exact (Arena.resolveTo_zero j t child t' hj).elim
  · intro nodes node hc h
    obtain ⟨root, hattached, depth, hb⟩ := Node.attached_of_ofNodes h
    obtain ⟨s, hb⟩ := Node.ofRoot_eq_ok.1 hb
    rw [NodeSpec.inlined_build] at hb
    exact ⟨root, hattached, .of_serves (root.build_serves he
      (followTo_serves he hc Arena.resolveTo_zero depth) (hc root hattached.mem) hb)⟩

def tossStop : NodeSpec := ⟨none, some 1, none, none, none, some ()⟩

def tossLeaf : NodeSpec := ⟨none, some 2, none, none, some ⟨[⟨10, 5⟩, ⟨100, 1⟩], none⟩, none⟩

/-- A branch between the stop, one time out of four, and the leaf. -/
def toss (stop leaf : Option NodeSpec × Option UInt32) : NodeSpec :=
  ⟨some "toss", none, none,
    some ⟨[⟨stop.1, stop.2, some 0.25, none⟩, ⟨leaf.1, leaf.2, some 0.75, none⟩], some "toss", none,
      none⟩,
    none, none⟩

theorem label_of_chances_toss :
    ∃ tree list,
      (toss (some tossStop, none) (some tossLeaf, none)).ByChance ∧
      Node.ofRoot (toss (some tossStop, none) (some tossLeaf, none)) = .ok tree ∧
      (∀ n ∈ [tossLeaf, tossStop, toss (none, some 1) (none, some 2)], n.ByChance) ∧
      Node.ofNodes [tossLeaf, tossStop, toss (none, some 1) (none, some 2)] = .ok list ∧
      LabeledBy [] (toss (some tossStop, none) (some tossLeaf, none)) ⟨tree, true⟩
        Schema.labelerInput.fields.empty ∧
      ∃ root, LabeledBy [tossLeaf, tossStop, toss (none, some 1) (none, some 2)] root ⟨list, true⟩
        Schema.labelerInput.fields.empty := by
  have hb : ∃ tree list, Node.ofRoot (toss (some tossStop, none) (some tossLeaf, none)) = .ok tree ∧
      Node.ofNodes [tossLeaf, tossStop, toss (none, some 1) (none, some 2)] = .ok list :=
    ⟨_, _, rfl, rfl⟩
  obtain ⟨tree, list, ht, hl⟩ := hb
  have hct : (toss (some tossStop, none) (some tossLeaf, none)).ByChance :=
    ⟨⟨⟨rfl, trivial⟩, ⟨rfl, trivial⟩, trivial⟩, rfl, rfl⟩
  have hcl : ∀ n ∈ [tossLeaf, tossStop, toss (none, some 1) (none, some 2)], n.ByChance := by
    simp [tossLeaf, tossStop, toss, NodeSpec.ByChance, BranchSpec.ByChance, edgesByChance,
      EdgeSpec.ByChance]
  obtain ⟨htree, hlist⟩ := label_of_chances true Schema.labelerInput.fields.empty
  obtain ⟨root, -, hroot⟩ := hlist _ list hcl hl
  exact ⟨tree, list, hct, ht, hcl, hl, htree _ tree hct ht, root, hroot⟩

end Labeler

end VirtualPeople
