import VirtualPeople.Proofs.Labeling.Activities
import VirtualPeople.Proofs.Model.Parts
import VirtualPeople.Proofs.Multiplicity.Capping

/-!
# The most activities of a run

A leaf adds one activity, and a multiplicity makes at most its bound of copies, each of which starts
without activities again. So nested multiplicities multiply, and of the children of a branch the one
with most counts (`Node.length_le_most`). The factor of a negative bound is zero copies, not a
negative number of them (`Node.most_not_of_ceil`).
-/

namespace VirtualPeople

def Update.isTree : Update → Bool
  | .tree _ => true
  | _ => false

/-- No update is a tree. -/
def Action.Treeless : Action → Prop
  | .updates us => ∀ u ∈ us, u.isTree = false
  | _ => True

mutual

/-- No update of a node, at any depth, is a tree. -/
def Node.Treeless : Node → Prop
  | ⟨_, _, _, kind⟩ => kind.Treeless

def NodeKind.Treeless : NodeKind → Prop
  | .branch children _ action => childrenTreeless children ∧ action.Treeless
  | .population _ => True
  | .stop => True

def childrenTreeless : List Node → Prop
  | [] => True
  | child :: rest => child.Treeless ∧ childrenTreeless rest

end

/-- What an action multiplies the activities by. -/
def Action.factor (factor : Multiplicity → ℤ) : Action → ℤ
  | .none => 1
  | .updates _ => 1
  | .multiplicity m => factor m

mutual

/-- The product of the factors down the path with most activities. -/
def Node.most (factor : Multiplicity → ℤ) : Node → ℤ
  | ⟨_, _, _, kind⟩ => kind.most factor

def NodeKind.most (factor : Multiplicity → ℤ) : NodeKind → ℤ
  | .branch children _ action => action.factor factor * mostOf factor children
  | .population _ => 1
  | .stop => 0

def mostOf (factor : Multiplicity → ℤ) : List Node → ℤ
  | [] => 0
  | [node] => node.most factor
  | node :: other :: rest => max (node.most factor) (mostOf factor (other :: rest))

end

theorem Action.factor_nonneg {factor : Multiplicity → ℤ} (hf : ∀ m, 0 ≤ factor m)
    (action : Action) : 0 ≤ action.factor factor := by
  cases action with
  | none => exact Int.one_nonneg
  | updates us => exact Int.one_nonneg
  | multiplicity m => exact hf m

mutual

theorem Node.most_nonneg {factor : Multiplicity → ℤ} (hf : ∀ m, 0 ≤ factor m) :
    ∀ node : Node, 0 ≤ node.most factor
  | ⟨_, _, _, kind⟩ => NodeKind.most_nonneg hf kind

theorem NodeKind.most_nonneg {factor : Multiplicity → ℤ} (hf : ∀ m, 0 ≤ factor m) :
    ∀ kind : NodeKind, 0 ≤ kind.most factor
  | .branch children _ action =>
    Int.mul_nonneg (action.factor_nonneg hf) (mostOf_nonneg hf children)
  | .population _ => Int.one_nonneg
  | .stop => Int.le_refl 0

theorem mostOf_nonneg {factor : Multiplicity → ℤ} (hf : ∀ m, 0 ≤ factor m) :
    ∀ children : List Node, 0 ≤ mostOf factor children
  | [] => Int.le_refl 0
  | [node] => Node.most_nonneg hf node
  | node :: _ :: _ => le_max_of_le_left (Node.most_nonneg hf node)

end

theorem most_le_mostOf {factor : Multiplicity → ℤ} {node : Node} {rest : List Node} :
    node.most factor ≤ mostOf factor (node :: rest) := by
  rcases rest with _ | ⟨other, rest⟩
  · exact le_refl _
  · exact le_max_left _ _

theorem mostOf_le_cons {factor : Multiplicity → ℤ} {node other : Node} {rest : List Node} :
    mostOf factor (other :: rest) ≤ mostOf factor (node :: other :: rest) :=
  le_max_right _ _

/-- An update that is no tree and carries no activities leaves those of an event. -/
theorem Update.activities_apply {M : Multiplicity → Prop} {u : Update} (hq : u.All (.quiet M))
    (htree : u.isTree = false) {e e' : Event} (h : u.apply e = .ok () e') :
    Event.activities e' = Event.activities e := by
  rw [← Labeling.leaves_of_ok h]
  cases u with
  | matrix m => exact Matrix.activities_update hq e
  | sparseMatrix m => exact SparseMatrix.activities_update hq e
  | merge m => exact ConditionalMerge.activities_update hq e
  | assignment a => exact a.activities_update e
  | shredder s => exact s.activities_update e
  | tree root => cases htree

theorem activities_updateAll {M : Multiplicity → Prop} :
    ∀ {us : List Update} {e e' : Event}, updatesAll (.quiet M) us →
    (∀ u ∈ us, u.isTree = false) → updateAll us e = .ok () e' →
    Event.activities e' = Event.activities e
  | [], _, _, _, _, h => by
    cases h
    rfl
  | u :: rest, e, e', hq, htree, h => by
    simp only [updateAll] at h
    rcases hu : u.apply e with ⟨⟨⟩, mid⟩ | ⟨err, s⟩
    · rw [hu] at h
      have hrest := activities_updateAll hq.2 (fun v hv => htree v (List.mem_cons_of_mem u hv)) h
      exact hrest.trans (u.activities_apply hq.1 (htree u List.mem_cons_self) hu)
    · rw [hu] at h
      cases h

/-- Labeling an event without activities adds so many at most. -/
def AddsAtMost (bound : ℤ) (label : Labeling) : Prop :=
  ∀ e e', Event.activities e = [] → label e = .ok () e' →
    ((Event.activities e').length : ℤ) ≤ bound

namespace AddsAtMost

theorem expand {m : Multiplicity} {label : Labeling} {bound : ℤ} (hbound : 0 ≤ bound)
    (hl : AddsAtMost bound label) (hcapped : m.Capped) :
    AddsAtMost (m.cap * bound) (m.expand label) := by
  intro e e' hempty h
  rcases hcount : m.count e with err | copies
  · simp only [Multiplicity.expand, hcount] at h
    cases h
  have hcopies : (copies : ℤ) ≤ m.cap := Int.ofNat_le.2 (Multiplicity.count_le_cap hcapped hcount)
  have hcap : (copies : ℤ) * bound ≤ m.cap * bound := Int.mul_le_mul_of_nonneg_right hcopies hbound
  by_cases hone : copies = 1
  · subst hone
    obtain ⟨first, hfirst, h⟩ := (Multiplicity.expand_one_eq_ok hcount).1 h
    have hlabel := hl _ _ ((Multiplicity.activities_setPersonIndex hfirst).trans hempty) h
    rw [Nat.cast_one, Int.one_mul] at hcap
    exact hlabel.trans hcap
  · rw [Multiplicity.expand_of_count hcount hone] at h
    have hclones := Multiplicity.labelClones_length_le (hl _ _) hempty h
    rw [hempty, List.length_nil, Nat.cast_zero, Int.zero_add] at hclones
    exact hclones.trans hcap

theorem descend {children : List Node} (selector : Selector) {bound : ℤ}
    (hat : ∀ i, AddsAtMost bound (applyAt children i)) :
    AddsAtMost bound (descend children selector) := by
  intro e e' hempty h
  unfold VirtualPeople.descend at h
  rcases hs : selector.select e with err | i
  · rw [hs] at h
    cases h
  · rw [hs] at h
    exact hat i e e' hempty h

end AddsAtMost

theorem cap_cast_nonneg (m : Multiplicity) : (0 : ℤ) ≤ m.cap := Int.natCast_nonneg m.cap

mutual

theorem Node.addsAtMost : ∀ node : Node, node.All (.quiet Multiplicity.Capped) → node.Treeless →
    AddsAtMost (node.most fun m => m.cap) node.apply
  | ⟨_, _, _, kind⟩, h, htree => NodeKind.addsAtMost kind h htree

theorem NodeKind.addsAtMost : ∀ kind : NodeKind, kind.All (.quiet Multiplicity.Capped) →
    kind.Treeless → AddsAtMost (kind.most fun m => m.cap) kind.apply
  | .branch children selector .none, h, htree => by
    have hat := AddsAtMost.descend selector (applyAt_addsAtMost children h.2.1 htree.1)
    rw [NodeKind.most, Action.factor, Int.one_mul]
    exact hat
  | .branch children selector (.updates us), h, htree => by
    have hat := AddsAtMost.descend selector (applyAt_addsAtMost children h.2.1 htree.1)
    rw [NodeKind.most, Action.factor, Int.one_mul]
    intro e e' hempty hrun
    simp only [NodeKind.apply] at hrun
    rcases hu : updateAll us e with ⟨⟨⟩, mid⟩ | ⟨err, s⟩
    · rw [hu] at hrun
      exact hat mid e' ((activities_updateAll h.2.2 htree.2 hu).trans hempty) hrun
    · rw [hu] at hrun
      cases hrun
  | .branch children selector (.multiplicity m), h, htree =>
    AddsAtMost.expand (mostOf_nonneg cap_cast_nonneg children)
      (AddsAtMost.descend selector (applyAt_addsAtMost children h.2.1 htree.1)) h.2.2
  | .population leaf, _, _ => by
    intro e e' _ hrun
    obtain ⟨-, a, rfl⟩ := Population.apply_eq_ok (change_eq_ok hrun)
    exact le_refl _
  | .stop, _, _ => by
    intro e e' hempty hrun
    cases hrun
    rw [hempty]
    exact le_refl _

theorem applyAt_addsAtMost : ∀ children : List Node,
    childrenAll (.quiet Multiplicity.Capped) children → childrenTreeless children →
    ∀ i, AddsAtMost (mostOf (fun m => m.cap) children) (applyAt children i)
  | [], _, _, _ => by
    intro e e' _ hrun
    cases hrun
  | node :: _, h, htree, 0 => fun e e' hempty hrun =>
    (Node.addsAtMost node h.1 htree.1 e e' hempty hrun).trans most_le_mostOf
  | [_], _, _, _ + 1 => by
    intro e e' _ hrun
    cases hrun
  | _ :: other :: rest, h, htree, i + 1 => fun e e' hempty hrun =>
    (applyAt_addsAtMost (other :: rest) h.2 htree.2 i e e' hempty hrun).trans mostOf_le_cons

end

namespace Node

/-- A run on an event without activities that succeeds leaves it with no more activities than the
bounds of the multiplicities on some path, rounded up, multiply to. -/
theorem length_le_most {node : Node} (hall : node.All (.quiet Multiplicity.Capped))
    (htree : node.Treeless) {e e' : Event} (hempty : Event.activities e = [])
    (h : node.apply e = .ok () e') :
    ((Event.activities e').length : ℤ) ≤ node.most fun m => m.cap :=
  node.addsAtMost hall htree e e' hempty h

/-- A leaf below a multiplicity below another, with constants for the expected numbers. -/
def nested (outer outerMax inner innerMax : Float) : NodeSpec :=
  let always : FilterSpec := ⟨.always, none, none, []⟩
  let times (expected max : Float) : MultiplicitySpec :=
    ⟨some expected, none, some max, some false, some "multiplicity_person_index", some ""⟩
  let above (m : MultiplicitySpec) (child : NodeSpec) : NodeSpec :=
    ⟨none, none, none, some ⟨[⟨some child, none, none, some always⟩], none, none, some m⟩, none,
      none⟩
  above (times outer outerMax) (above (times inner innerMax)
    ⟨none, none, none, none, some ⟨[⟨0, 0⟩], none⟩, none⟩)

theorem length_le_most_nested :
    ∃ node e', ofRoot (nested 2.0 2.0 3.0 3.0) = .ok node ∧
      node.All (.quiet Multiplicity.Capped) ∧ node.Treeless ∧
      Event.activities .empty = [] ∧ node.apply .empty = .ok () e' ∧
      (Event.activities e').length = 6 ∧
      ((Event.activities e').length : ℤ) ≤ node.most fun m => m.cap := by
  have hb : ∃ node e', ofRoot (nested 2.0 2.0 3.0 3.0) = .ok node ∧
      node.All (.quiet Multiplicity.Capped) ∧ node.Treeless ∧
      Event.activities .empty = [] ∧ node.apply .empty = .ok () e' ∧
      (Event.activities e').length = 6 :=
    ⟨_, _, rfl, ⟨trivial, ⟨⟨trivial, ⟨trivial, trivial⟩, rfl⟩, trivial⟩, rfl⟩,
      ⟨⟨⟨⟨trivial, trivial⟩, trivial⟩, trivial⟩, trivial⟩, rfl, rfl, rfl⟩
  obtain ⟨node, e', hb, hall, htree, hempty, h, hsix⟩ := hb
  exact ⟨node, e', hb, hall, htree, hempty, h, hsix, length_le_most hall htree hempty h⟩

/-- With a negative bound below it, a multiplicity that makes no copies succeeds without activities,
where the bounds would multiply to a negative number. -/
theorem most_not_of_ceil :
    ¬ ∀ node : Node, node.Built → node.All (.quiet Multiplicity.Capped) → node.Treeless → ∀ e e',
      Event.activities e = [] → node.apply e = .ok () e' →
      ((Event.activities e').length : ℤ) ≤ node.most fun m => ⌈valueOf m.max⌉ := by
  have hb : ∃ node e', ofRoot (nested 0.0 1.0 1.0 (-1.0)) = .ok node ∧
      node.All (.quiet Multiplicity.Capped) ∧ node.Treeless ∧
      Event.activities .empty = [] ∧ node.apply .empty = .ok () e' ∧
      (node.most fun m => ⌈valueOf m.max⌉) = ⌈valueOf 1.0⌉ * (⌈valueOf (-1.0)⌉ * 1) :=
    ⟨_, _, rfl, ⟨trivial, ⟨⟨trivial, ⟨trivial, trivial⟩, rfl⟩, trivial⟩, rfl⟩,
      ⟨⟨⟨⟨trivial, trivial⟩, trivial⟩, trivial⟩, trivial⟩, rfl, rfl, rfl⟩
  obtain ⟨node, e', hb, hall, htree, hempty, h, hmost⟩ := hb
  intro hclaim
  have hle := hclaim node (.ofRoot hb) hall htree .empty e' hempty h
  rw [hmost, valueOf_one, valueOf_neg_one, Int.ceil_neg, Int.floor_one, Int.ceil_one] at hle
  omega

end Node

end VirtualPeople
