import VirtualPeople.Proofs.Labeling.Activities
import VirtualPeople.Proofs.Model.Parts
import VirtualPeople.Proofs.Pools.Growing
import VirtualPeople.Proofs.Update.InRange
import VirtualPeople.Proofs.Update.Writing

/-!
# No internal errors

A built tree has what its run looks for (`Parts.inRange`): a child for every choice of a selector, a
row for every column of a matrix, an update for every condition of a merge, a person for every seed
of a leaf, and a field of its kind for every value it writes. So a run never ends with an internal
error (`Node.never_internal`), whatever event it starts from.
-/

namespace VirtualPeople

theorem Selector.select_lt {edges : List EdgeSpec} {seed : Option String} {s : Selector}
    (h : BranchSpec.selector edges seed = .ok s) {e : Event} {i : Nat} (hi : s.select e = .ok i) :
    i < edges.length := by
  simp only [BranchSpec.selector, bind_eq_ok] at h
  obtain ⟨selectors, hselectors, h⟩ := h
  rw [(forall₂_of_mapM hselectors).length_eq]
  split at h
  · simp only [bind_eq_ok, pure_eq_ok] at h
    obtain ⟨filters, hfilters, rfl⟩ := h
    rw [(forall₂_of_mapM hfilters).length_eq]
    unfold select at hi
    simp only at hi
    split at hi
    · rename_i j hj
      obtain rfl := pure_eq_ok.1 hi
      exact firstMatch_lt hj
    · exact (invalidEvent_ne_ok hi).elim
  · simp only [bind_eq_ok, pure_eq_ok] at h
    obtain ⟨chances, hchances, d, hd, rfl⟩ := h
    rw [(forall₂_of_mapM hchances).length_eq]
    obtain rfl := pure_eq_ok.1 hi
    exact Distribution.pick_lt hd _

theorem Selector.select_neverInternal (s : Selector) (e : Event) : NeverInternal (s.select e) := by
  unfold select
  split
  · exact .ok _
  · split
    · exact .ok _
    · exact .invalidEvent _

theorem Distribution.ofWeights_neverInternal (weights : List Float) :
    NeverInternal (ofWeights weights) := by
  unfold ofWeights ofChoices
  split
  · exact .invalidModel _
  · split
    · exact .invalidModel _
    · simp only
      split_ifs
      · exact .ok _
      · exact .invalidModel _

namespace QuantumLabel

/-- A distribution of as many probabilities as there are labels picks one of the labels. -/
def InRange (q : QuantumLabel) : Prop :=
  ∀ d, q.labels.length = q.probabilities.length → Distribution.ofWeights q.probabilities = .ok d →
    ∀ seed, d.pick seed < q.labels.length

theorem inRange (q : QuantumLabel) : q.InRange := by
  intro d hlength hd seed
  rw [hlength]
  exact Distribution.pick_lt hd seed

theorem collapse_neverInternal (suffix : String) (q : QuantumLabel) :
    NeverInternal (q.collapse suffix) := by
  unfold collapse
  split_ifs with hempty hlength
  · exact .invalidEvent _
  · exact .invalidEvent _
  · refine .bind (Distribution.ofWeights_neverInternal q.probabilities) fun d hd => ?_
    have hpick := q.inRange d (Decidable.not_not.1 hlength) hd
    simp only [List.getElem?_eq_getElem (hpick _)]
    exact .ok _

theorem collapseAll_neverInternal (suffix : String) : ∀ (labels : List QuantumLabel)
    (label : PersonLabel), NeverInternal (collapseAll suffix label labels)
  | [], label => .ok label
  | q :: rest, label => by
    unfold collapseAll
    exact .bind (collapse_neverInternal suffix q) fun chosen _ =>
      collapseAll_neverInternal suffix rest _

end QuantumLabel

namespace Population

/-- The ids are those of pools, and every seed gets the id of one of them; every label of an event
is chosen from the labels that there are. -/
def InRange (p : Population) : Prop :=
  (∀ ids, p.ids = some ids → ∃ pools, IdSpace.ofPools pools = .ok ids ∧
    ∀ seed, ∃ pool ∈ pools, pool.Has (ids.personId seed)) ∧ ∀ q : QuantumLabel, q.InRange

theorem inRange_of_build {p : PopulationSpec} {built : Population} (h : p.build = .ok built) :
    built.InRange := by
  refine ⟨fun ids hids => ?_, QuantumLabel.inRange⟩
  unfold PopulationSpec.build at h
  simp only at h
  split_ifs at h
  · obtain rfl := pure_eq_ok.1 h
    cases hids
  · simp only [bind_eq_ok, pure_eq_ok] at h
    obtain ⟨space, hspace, rfl⟩ := h
    cases hids
    exact ⟨p.pools, hspace, IdSpace.has_personId hspace⟩

theorem label_neverInternal (e : Event) (id : Option Int64) : NeverInternal (label e id) := by
  unfold label
  simp only
  split
  · refine .bind (.ok none) fun collapsed _ => ?_
    split
    · exact .ok collapsed
    · exact .ok _
  · rename_i labels _
    refine .bind (.map (QuantumLabel.collapseAll_neverInternal _ labels _)) fun collapsed _ => ?_
    split
    · exact .ok collapsed
    · exact .ok _

theorem apply_neverInternal (p : Population) (e : Event) : NeverInternal (p.apply e) := by
  have hassigned : NeverInternal (p.assigned e) := by
    by_cases hempty : Event.activities e = []
    · rw [assigned_of_empty hempty]
      exact .map (label_neverInternal e _)
    · rw [assigned_of_ne_nil hempty]
      exact .invalidEvent _
  exact hassigned.bind fun activity _ => .ok _

end Population

theorem Labeling.change_neverInternal {f : Event → Except Error Event}
    (h : ∀ e, VirtualPeople.NeverInternal (f e)) : (Labeling.change f).NeverInternal := by
  intro e fault s hc
  unfold change at hc
  split at hc
  · cases hc
  · rename_i err herr
    cases hc
    exact h e fault herr

namespace Multiplicity

theorem count_neverInternal (m : Multiplicity) (e : Event) : NeverInternal (m.count e) := by
  have hleast : ∀ x : Float, NeverInternal
      (if x < 0.0 then invalidEvent (.multiplicityNegative x) else pure x) := by
    intro x
    split_ifs
    · exact .invalidEvent _
    · exact .ok x
  have hexpected : NeverInternal (m.expectedOf e) := by
    unfold expectedOf
    split
    · exact .ok _
    · split
      · exact .ok _
      · exact .invalidEvent _
  have hbounded : ∀ x, NeverInternal (m.bounded x) := by
    intro x
    unfold bounded
    simp only
    split
    · split
      · exact hleast m.max
      · exact .invalidEvent _
    · exact hleast x
  unfold count
  exact .bind hexpected fun x _ => .bind (hbounded x) fun y _ => .ok _

theorem setPersonIndex_neverInternal (m : Multiplicity) (index : Nat) (e : Event) :
    NeverInternal (m.setPersonIndex index e) := by
  unfold setPersonIndex
  split
  · exact .ok _
  · exact .invalidEvent _

variable {label : Labeling}

theorem labelClones_neverInternal (m : Multiplicity) (hl : label.NeverInternal) (template : Event) :
    ∀ copies index, (m.labelClones label template copies index).NeverInternal
  | 0, _, _, _, _, h => by cases h
  | copies + 1, index, e, fault, s, h => by
    unfold labelClones at h
    split at h
    · rename_i err herr
      cases h
      exact setPersonIndex_neverInternal m index _ fault herr
    · rename_i copy _
      split at h
      · rename_i err t herr
        cases h
        exact hl copy fault t herr
      · exact labelClones_neverInternal m hl template copies (index + 1) _ fault s h

theorem expand_neverInternal (m : Multiplicity) (hl : label.NeverInternal) :
    (m.expand label).NeverInternal := by
  intro e fault s h
  unfold expand at h
  split at h
  · rename_i err herr
    cases h
    exact count_neverInternal m e fault herr
  · split at h
    · rename_i err herr
      cases h
      exact setPersonIndex_neverInternal m 0 e fault herr
    · exact hl _ fault s h
  · exact labelClones_neverInternal m hl e _ 0 e fault s h

end Multiplicity

/-- Whatever a run looks for is there, and whatever it writes is of the kind of its field. -/
def Parts.inRange : Parts where
  selector children s := ∀ e i, s.select e = .ok i → i < children
  multiplicity m := ∀ index e e', m.setPersonIndex index e = .ok e' →
    ∃ v, m.number index = some v ∧ Writes m.personIndex (.of m.personIndex.kind v) e e'
  leaf p := p.InRange
  matrix m := m.InRange
  sparseMatrix m := m.InRange
  merge m := m.InRange
  assignment a := ∀ b ∈ a.assignments, b.target.kind = b.source.kind ∧
    ∀ e v, b.source.get? e = some v → ∃ e', b.run e = .ok () e' ∧ Writes b.target v e e'
  shredder d := (∀ hash e, ∃ e', Writes d.target (.uint64 hash) e e') ∧
    ∀ e e', d.update e = .ok () e' → e' = e ∨ ∃ hash, Writes d.target (.uint64 hash) e e'

theorem Parts.inRange_ofBuilds : inRange.OfBuilds where
  selector _ _ _ h _ _ hi := Selector.select_lt h hi
  multiplicity _ built _ _ _ _ h := built.writes_setPersonIndex h
  leaf _ _ h := Population.inRange_of_build h
  matrix _ _ h := Matrix.inRange_of_build h
  sparseMatrix _ _ h := SparseMatrix.inRange_of_build h
  merge _ _ h := ConditionalMerge.inRange_of_build h
  assignment _ _ h b hb :=
    have hkind := ConditionalAssignmentSpec.kinds_of_build h b hb
    ⟨hkind, fun _ _ => b.exists_write hkind⟩
  shredder _ built h :=
    have hkind := ShredderSpec.kind_of_build h
    ⟨built.exists_write hkind, fun _ _ => built.writes_update hkind⟩

theorem descend_neverInternal {children : List Node} {selector : Selector}
    (hat : ∀ i, i < children.length → (applyAt children i).NeverInternal)
    (hselect : ∀ e i, selector.select e = .ok i → i < children.length) :
    (descend children selector).NeverInternal := by
  intro e fault s h
  unfold descend at h
  split at h
  · rename_i err herr
    cases h
    exact selector.select_neverInternal e fault herr
  · rename_i i hi
    exact hat i (hselect e i hi) e fault s h

mutual

theorem Node.apply_neverInternal : ∀ node : Node, node.All .inRange → node.apply.NeverInternal
  | ⟨_, _, _, kind⟩, h => NodeKind.apply_neverInternal kind h

theorem NodeKind.apply_neverInternal :
    ∀ kind : NodeKind, kind.All .inRange → kind.apply.NeverInternal
  | .branch children selector .none, h =>
    descend_neverInternal (applyAt_neverInternal children h.2.1) h.1
  | .branch children selector (.updates us), h => by
    intro e fault s hc
    simp only [NodeKind.apply] at hc
    split at hc
    · exact descend_neverInternal (applyAt_neverInternal children h.2.1) h.1 _ fault s hc
    · rename_i err _ herr
      cases hc
      exact updateAll_neverInternal us h.2.2 e fault s herr
  | .branch children selector (.multiplicity m), h =>
    m.expand_neverInternal (descend_neverInternal (applyAt_neverInternal children h.2.1) h.1)
  | .population leaf, _ => Labeling.change_neverInternal leaf.apply_neverInternal
  | .stop, _ => fun _ _ _ hc => by cases hc

theorem applyAt_neverInternal : ∀ (children : List Node), childrenAll .inRange children →
    ∀ i, i < children.length → (applyAt children i).NeverInternal
  | [], _, _, hi => absurd hi (Nat.not_lt_zero _)
  | node :: _, h, 0, _ => Node.apply_neverInternal node h.1
  | _ :: rest, h, i + 1, hi => applyAt_neverInternal rest h.2 i (Nat.lt_of_succ_lt_succ hi)

theorem updateAll_neverInternal : ∀ us : List Update, updatesAll .inRange us →
    (updateAll us).NeverInternal
  | [], _ => fun _ _ _ hc => by cases hc
  | u :: rest, h => by
    intro e fault s hc
    simp only [updateAll] at hc
    split at hc
    · exact updateAll_neverInternal rest h.2 _ fault s hc
    · rename_i err _ herr
      cases hc
      exact Update.apply_neverInternal u h.1 e fault s herr

theorem Update.apply_neverInternal :
    ∀ u : Update, u.All .inRange → u.apply.NeverInternal
  | .matrix _, h => Matrix.update_neverInternal h
  | .sparseMatrix _, h => SparseMatrix.update_neverInternal h
  | .merge _, h => ConditionalMerge.update_neverInternal h
  | .assignment _, h => ConditionalAssignment.update_neverInternal fun b hb => (h b hb).1
  | .shredder _, h => Shredder.update_neverInternal h.1
  | .tree root, h => Node.apply_neverInternal root h

end

namespace Node

/-- A run of a built tree never ends with an internal error: whatever it looks for is there, and
whatever it writes is of the kind of its field. -/
theorem never_internal {node : Node} (h : node.Built) :
    (∀ e fault s, node.apply e ≠ .error (.internal fault) s) ∧ node.All .inRange := by
  have hall := all_of_built Parts.inRange_ofBuilds h
  exact ⟨node.apply_neverInternal hall, hall⟩

/-- A tree with two leaves that all sorts of updates lead to, one of them through a multiplicity. -/
def everyPart : NodeSpec :=
  let always : FilterSpec := ⟨.always, none, none, []⟩
  let leaf : NodeSpec := ⟨none, none, none, none, some ⟨[⟨10, 5⟩, ⟨10, 3⟩], none⟩, none⟩
  let twice : MultiplicitySpec :=
    ⟨some 2.0, none, some 2.0, some false, some "multiplicity_person_index", some ""⟩
  let split : NodeSpec :=
    ⟨none, none, none, some ⟨[⟨some leaf, none, none, some always⟩], none, none, some twice⟩,
      none, none⟩
  let matrix : MatrixSpec := ⟨[.empty], [.empty, .empty], [0.25, 0.75], none, none, none⟩
  let sparse : SparseMatrixSpec :=
    ⟨[⟨some .empty, [.empty], [1.0]⟩], none, none, some ⟨["person_country_code"]⟩⟩
  let merge : ConditionalMergeSpec := ⟨[⟨some always, some .empty⟩], none⟩
  let assignment : ConditionalAssignmentSpec :=
    ⟨some always, [⟨some "person_country_code", some "person_region_code"⟩]⟩
  let shredder : ShredderSpec :=
    ⟨some 0.5, some "acting_fingerprint", some "acting_fingerprint", none⟩
  ⟨none, none, none,
    some ⟨[⟨some leaf, none, some 0.5, none⟩, ⟨some split, none, some 0.5, none⟩], none,
      some [⟨some matrix, none, none, none, none, none⟩,
        ⟨none, some sparse, none, none, none, none⟩,
        ⟨none, none, some merge, none, none, none⟩,
        ⟨none, none, none, some assignment, none, none⟩,
        ⟨none, none, none, none, some shredder, none⟩], none⟩,
    none, none⟩

theorem never_internal_everyPart :
    ∃ node, Built node ∧ (∀ e fault s, node.apply e ≠ .error (.internal fault) s) ∧
      node.All .inRange := by
  have hb : ∃ node, ofRoot everyPart = .ok node := ⟨_, rfl⟩
  obtain ⟨node, hb⟩ := hb
  exact ⟨node, .ofRoot hb, never_internal (.ofRoot hb)⟩

/-- A tree that nothing builds may well look for a child that it lacks. -/
example : Node.apply ⟨"", none, false, .branch [] (.condition [.always]) .none⟩ .empty
    = .error (.internal .choiceRange) .empty := rfl

end Node

end VirtualPeople
