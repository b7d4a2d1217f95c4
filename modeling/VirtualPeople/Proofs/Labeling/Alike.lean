import VirtualPeople.Proofs.Labeling.Internal

/-!
# What a model that goes by chance sees

A tree in which all branches go by chance, and all numbers of copies are constants, reads only the
fingerprint of an event, its labels and its activities. Events that are alike in those stay alike
through every part of a run, whatever the field is in which copies are counted; so they are labeled
alike, or refused alike (`Node.apply_alike`).
-/

namespace VirtualPeople

namespace Event

/-- Events with one fingerprint, an unset one being zero, and with the same labels and
activities. -/
structure Alike (a b : Event) : Prop where
  fingerprint : fingerprint a = fingerprint b
  label : label a = label b
  quantumLabels : quantumLabels a = quantumLabels b
  activities : activities a = activities b

/-- The field of the label. -/
def labelField :
    Schema.event.fields.At (.message Schema.personLabel.name Schema.personLabel.fields) :=
  .there (.there (.there (.there (.there (.there (.there (.there .here)))))))

/-- The field of the quantum labels. -/
def quantumLabelsField :
    Schema.event.fields.At (.message Schema.quantumLabels.name Schema.quantumLabels.fields) :=
  .there (.there (.there (.there (.there (.there (.there (.there (.there .here))))))))

theorem quantumLabels_congr {a b : Event}
    (h : quantumLabelsField.get a = quantumLabelsField.get b) : quantumLabels a = quantumLabels b :=
  congrArg (Option.map fun labels : QuantumLabels => labels.1) h

theorem quantumLabelsField_congr {a b : Event} (h : quantumLabels a = quantumLabels b) :
    quantumLabelsField.get a = quantumLabelsField.get b :=
  Option.map_injective (fun ⟨_, ()⟩ ⟨_, ()⟩ h => congrArg (·, ()) h) h

namespace Alike

variable {a b : Event}

theorem withFingerprint (h : a.Alike b) (f : UInt64) :
    (Event.withFingerprint f a).Alike (Event.withFingerprint f b) :=
  ⟨rfl, h.label, h.quantumLabels, h.activities⟩

theorem withActivities (h : a.Alike b) (as : List Activity) :
    (Event.withActivities as a).Alike (Event.withActivities as b) :=
  ⟨h.fingerprint, h.label, h.quantumLabels, rfl⟩

/-- Events that are alike stay so when a scalar is written to them, wherever it is. -/
theorem set {k : ScalarKind} (h : a.Alike b) (p : Path Schema.event.fields (.scalar k))
    (v : k.Carrier) : Alike (p.set (some v) a) (p.set (some v) b) where
  fingerprint := fingerprint_set_congr p v h.fingerprint
  label := labelField.get_set_path_congr p (some v) h.label
  quantumLabels := quantumLabels_congr <|
    quantumLabelsField.get_set_path_congr p (some v) (quantumLabelsField_congr h.quantumLabels)
  activities := activitiesField.get_set_path_congr p (some v) h.activities

end Alike

end Event

/-- Two runs leave events that are alike, or fail with one error. -/
def AlikeRuns (r r' : EStateM.Result Error Event Unit) : Prop :=
  (∃ a b, r = .ok () a ∧ r' = .ok () b ∧ Event.Alike a b) ∨
    ∃ err s t, r = .error err s ∧ r' = .error err t

namespace AlikeRuns

theorem ok {a b : Event} (h : a.Alike b) : AlikeRuns (.ok () a) (.ok () b) :=
  .inl ⟨a, b, rfl, rfl, h⟩

theorem error (err : Error) (s t : Event) : AlikeRuns (.error err s) (.error err t) :=
  .inr ⟨err, s, t, rfl, rfl⟩

end AlikeRuns

/-- Labels events that are alike alike. -/
def Labeling.Uniform (label : Labeling) : Prop :=
  ∀ a b : Event, a.Alike b → AlikeRuns (label a) (label b)

namespace Population

variable {a b : Event}

theorem label_congr (h : a.Alike b) (id : Option Int64) : label a id = label b id := by
  unfold label
  rw [h.fingerprint, h.label, h.quantumLabels]

theorem apply_uniform (leaf : Population) : (Labeling.change leaf.apply).Uniform := by
  intro a b h
  have hassigned : leaf.assigned a = leaf.assigned b := by
    unfold assigned
    rw [h.activities, h.fingerprint]
    simp only [label_congr h]
  unfold Labeling.change apply
  rw [hassigned, h.activities]
  rcases leaf.assigned b with err | activity
  · exact .error err a b
  · exact .ok (h.withActivities _)

end Population

namespace Multiplicity

variable {m : Multiplicity} {a b a' b' : Event} {label : Labeling} {index : Nat}

theorem count_congr (hm : ∃ x, m.expected = .constant x) (h : a.Alike b) :
    m.count a = m.count b := by
  obtain ⟨x, hx⟩ := hm
  unfold count expectedOf
  rw [hx, h.fingerprint]

/-- Numbering events that are alike gives events that are alike, or fails for both. -/
theorem setPersonIndex_alike (m : Multiplicity) (index : Nat) (h : a.Alike b) :
    (∃ a' b', m.setPersonIndex index a = .ok a' ∧ m.setPersonIndex index b = .ok b' ∧
        a'.Alike b') ∨
      ∃ err, m.setPersonIndex index a = .error err ∧ m.setPersonIndex index b = .error err := by
  unfold setPersonIndex
  rcases if index < 1 <<< 63 then m.personIndex.kind.ofInt? index else none with _ | v
  · exact .inr ⟨_, rfl, rfl⟩
  · exact .inl ⟨_, _, rfl, rfl, h.set m.personIndex.path v⟩

theorem clone_alike (m : Multiplicity) (index : Nat) (h : a.Alike b) :
    (∃ a' b', m.clone a index = .ok a' ∧ m.clone b index = .ok b' ∧ a'.Alike b') ∨
      ∃ err, m.clone a index = .error err ∧ m.clone b index = .error err := by
  unfold clone
  rw [h.fingerprint]
  exact m.setPersonIndex_alike index (h.withFingerprint _)

theorem labelClones_alike (m : Multiplicity) (hl : label.Uniform) {template template' : Event}
    (ht : template.Alike template') : ∀ (copies index : Nat) {a b : Event}, a.Alike b →
      AlikeRuns (m.labelClones label template copies index a)
        (m.labelClones label template' copies index b)
  | 0, _, _, _, h => .ok h
  | copies + 1, index, a, b, h => by
    rw [labelClones, labelClones]
    rcases m.clone_alike index ht with ⟨c, d, hc, hd, hcopy⟩ | ⟨err, hc, hd⟩
    · simp only [hc, hd]
      rcases hl c d hcopy with ⟨c', d', hc', hd', hlabeled⟩ | ⟨err, s, t, hc', hd'⟩
      · rw [hc', hd']
        simp only
        rw [h.activities, hlabeled.activities]
        exact labelClones_alike m hl ht copies (index + 1) (h.withActivities _)
      · rw [hc', hd']
        exact .error err a b
    · rw [hc, hd]
      exact .error err a b

theorem expand_uniform (hm : ∃ x, m.expected = .constant x) (hl : label.Uniform) :
    (m.expand label).Uniform := by
  intro a b h
  rcases hcount : m.count b with err | copies
  · simp only [expand, count_congr hm h, hcount]
    exact .error err a b
  by_cases hone : copies = 1
  · subst hone
    simp only [expand, count_congr hm h, hcount]
    rcases m.setPersonIndex_alike 0 h with ⟨c, d, hc, hd, hfirst⟩ | ⟨err, hc, hd⟩
    · rw [hc, hd]
      exact hl c d hfirst
    · rw [hc, hd]
      exact .error err a b
  · rw [expand_of_count hcount hone, expand_of_count ((count_congr hm h).trans hcount) hone]
    exact labelClones_alike m hl h copies 0 h

end Multiplicity

/-- Children are selected by chance, and multiplicities expect a constant number of copies; of all
updates there may only be trees of such nodes. -/
def Parts.chances : Parts where
  selector _ s := ∃ distribution seed, s = .chance distribution seed
  multiplicity m := ∃ x, m.expected = .constant x
  leaf _ := True
  matrix _ := False
  sparseMatrix _ := False
  merge _ := False
  assignment _ := False
  shredder _ := False

theorem descend_uniform {children : List Node} {selector : Selector}
    (hat : ∀ i, (applyAt children i).Uniform) (hs : ∃ d seed, selector = .chance d seed) :
    (descend children selector).Uniform := by
  intro a b h
  obtain ⟨d, seed, rfl⟩ := hs
  have hselect : Selector.select (.chance d seed) a = Selector.select (.chance d seed) b := by
    unfold Selector.select
    rw [h.fingerprint]
  unfold descend
  rw [hselect]
  rcases Selector.select (.chance d seed) b with err | i
  · exact .error err a b
  · exact hat i a b h

mutual

theorem Node.apply_uniform : ∀ node : Node, node.All .chances → node.apply.Uniform
  | ⟨_, _, _, kind⟩, h => NodeKind.apply_uniform kind h

theorem NodeKind.apply_uniform : ∀ kind : NodeKind, kind.All .chances → kind.apply.Uniform
  | .branch children selector .none, h =>
    descend_uniform (applyAt_uniform children h.2.1) h.1
  | .branch children selector (.updates us), h => by
    intro a b hab
    simp only [NodeKind.apply]
    rcases updateAll_uniform us h.2.2 a b hab with ⟨c, d, hc, hd, hcd⟩ | ⟨err, s, t, hc, hd⟩
    · rw [hc, hd]
      exact descend_uniform (applyAt_uniform children h.2.1) h.1 c d hcd
    · rw [hc, hd]
      exact .error err s t
  | .branch children selector (.multiplicity m), h =>
    Multiplicity.expand_uniform h.2.2 (descend_uniform (applyAt_uniform children h.2.1) h.1)
  | .population leaf, _ => leaf.apply_uniform
  | .stop, _ => fun _ _ hab => .ok hab

theorem applyAt_uniform : ∀ (children : List Node), childrenAll .chances children →
    ∀ i, (applyAt children i).Uniform
  | [], _, _ => fun a b _ => .error _ a b
  | node :: _, h, 0 => Node.apply_uniform node h.1
  | _ :: rest, h, i + 1 => applyAt_uniform rest h.2 i

theorem updateAll_uniform : ∀ us : List Update, updatesAll .chances us → (updateAll us).Uniform
  | [], _ => fun _ _ hab => .ok hab
  | u :: rest, h => by
    intro a b hab
    simp only [updateAll]
    rcases Update.apply_uniform u h.1 a b hab with ⟨c, d, hc, hd, hcd⟩ | ⟨err, s, t, hc, hd⟩
    · rw [hc, hd]
      exact updateAll_uniform rest h.2 c d hcd
    · rw [hc, hd]
      exact .error err s t

theorem Update.apply_uniform : ∀ u : Update, u.All .chances → u.apply.Uniform
  | .tree root, h => Node.apply_uniform root h

end

namespace Node

/-- Events that have one fingerprint, and the same labels and activities, are labeled alike by a
tree that goes by chance, whatever else they hold: both are left with the same activities, or both
are refused with the same error. -/
theorem apply_alike {node : Node} (hc : node.All .chances) {a b : Event} (h : a.Alike b) :
    (∃ a' b', node.apply a = .ok () a' ∧ node.apply b = .ok () b' ∧
        Event.activities a' = Event.activities b') ∨
      ∃ err s t, node.apply a = .error err s ∧ node.apply b = .error err t := by
  rcases node.apply_uniform hc a b h with ⟨a', b', ha, hb, hout⟩ | hfails
  · exact .inl ⟨a', b', ha, hb, hout.activities⟩
  · exact .inr hfails

/-- Labels two copies of an event, each by a toss; the copies are counted by the youngest age of
their label. -/
def twoTosses : NodeSpec :=
  let leaf : NodeSpec := ⟨none, none, none, none, some ⟨[⟨10, 5⟩], none⟩, none⟩
  let stop : NodeSpec := ⟨none, none, none, none, none, some ()⟩
  ⟨none, none, none,
    some ⟨[⟨some leaf, none, some 0.5, none⟩, ⟨some stop, none, some 0.5, none⟩], none, none,
      some ⟨some 2.0, none, some 2.0, some false, some "label.demo.age.min_age", some ""⟩⟩,
    none, none⟩

/-- The event whose fingerprint is zero, in a country. -/
def zeroAbroad : Event :=
  (some 0, some "US", none, none, none, none, none, none, none, none, [], ())

theorem apply_alike_twoTosses :
    ∃ node, ofRoot twoTosses = .ok node ∧ node.All .chances ∧ Event.Alike .empty zeroAbroad ∧
      ((∃ a b, node.apply .empty = .ok () a ∧ node.apply zeroAbroad = .ok () b ∧
          Event.activities a = Event.activities b) ∨
        ∃ err s t, node.apply .empty = .error err s ∧ node.apply zeroAbroad = .error err t) := by
  have hb : ∃ node, ofRoot twoTosses = .ok node ∧ node.All .chances :=
    ⟨_, rfl, ⟨_, _, rfl⟩, ⟨trivial, trivial, trivial⟩, _, rfl⟩
  obtain ⟨node, hb, hc⟩ := hb
  have halike : Event.Alike .empty zeroAbroad := ⟨rfl, rfl, rfl, rfl⟩
  exact ⟨node, hb, hc, halike, apply_alike hc halike⟩

end Node

end VirtualPeople
