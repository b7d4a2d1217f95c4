import VirtualPeople.Filter.Condition
import VirtualPeople.Proofs.Outcome

/-!
# What the filter of a record asks

The filter of a record holds of just those records that have, wherever a path of messages leads to a
scalar that is set in it, an equal scalar (`Filter.holds_ofRecord`). The conditions are collected
along the schema, whose paths from the root are those of a message behind the path to it.
-/

namespace VirtualPeople

namespace Path

theorem andThen_assoc : ∀ {fs gs hs : Fields} {n m : String} {t : FieldType}
    (p : Path fs (.message n gs)) (q : Path gs (.message m hs)) (r : Path hs t),
    (p.andThen q).andThen r = p.andThen (q.andThen r)
  | _, _, _, _, _, _, .field _, _, _ => by simp only [andThen]
  | _, _, _, _, _, _, .into _ p, q, r => by simp only [andThen, andThen_assoc p q r]

/-- The path from a root to whose fields `reach` leads. -/
def via {root : Fields} : {fs : Fields} → {t : FieldType} →
    ({u : FieldType} → fs.At u → Path root u) → Path fs t → Path root t
  | _, _, reach, .field a => reach a
  | _, _, reach, .into a p => (reach a).andThen p

theorem via_field {fs : Fields} {t : FieldType} : ∀ p : Path fs t, p.via .field = p
  | .field _ => rfl
  | .into _ _ => by simp only [via, andThen]

theorem via_andThen {root fs : Fields} {n : String} {t : FieldType}
    (path : Path root (.message n fs)) :
    ∀ p : Path fs t, p.via (fun a => path.andThen (.field a)) = path.andThen p
  | .field _ => rfl
  | .into a p => by
    rw [via, andThen_assoc]
    simp only [andThen]

end Path

/-- A record has a scalar equal to a value. -/
def HasEqual {root : Fields} {k : ScalarKind} (e : root.Record) (path : Path root (.scalar k))
    (v : k.Carrier) : Prop :=
  ∃ w, path.get e = some w ∧ k.beq w v

/-- A record has an equal scalar for every scalar that is set in a record within it. -/
def Covers {root fs : Fields} (e : root.Record) (reach : {t : FieldType} → fs.At t → Path root t)
    (r : fs.Record) : Prop :=
  ∀ k (p : Path fs (.scalar k)) v, p.get r = some v → HasEqual e (p.via reach) v

/-- The same for what a slot holds. -/
def CoversSlot {root : Fields} (e : root.Record) : (t : FieldType) → Path root t → t.Slot → Prop
  | .scalar _, path, slot => ∀ v, slot = some v → HasEqual e path v
  | .message _ _, path, slot => ∀ m, slot = some m → Covers e (fun a => path.andThen (.field a)) m
  | .list _, _, _ => True

theorem covers_cons {root : Fields} {e : root.Record} {name : String} {t : FieldType}
    {rest : Fields} {reach : {u : FieldType} → (Fields.cons name t rest).At u → Path root u}
    {slot : t.Slot} {r : rest.Record} :
    Covers e reach ((slot, r) : (Fields.cons name t rest).Record) ↔
      CoversSlot e t (reach .here) slot ∧ Covers e (fun a => reach (.there a)) r := by
  constructor
  · intro h
    constructor
    · cases t with
      | scalar k => exact fun v hv => h k (.field .here) v hv
      | message n fs =>
        intro m hm k p v hv
        rw [Path.via_andThen]
        refine h k (.into .here p) v ?_
        obtain rfl : slot = some m := hm
        exact hv
      | list t => trivial
    · intro k p v hv
      cases p with
      | field a => exact h k (.field (.there a)) v hv
      | into a p => exact h k (.into (.there a) p) v hv
  · rintro ⟨hslot, hrest⟩ k p v hv
    cases p with
    | field a =>
      cases a with
      | here => exact hslot v hv
      | there a => exact hrest k (.field a) v hv
    | into a p =>
      cases a with
      | here =>
        rcases slot with _ | m
        · cases hv
        · have := hslot m rfl k p v hv
          rwa [Path.via_andThen] at this
      | there a => exact hrest k (.into a p) v hv

theorem holds_equal {root : Fields} {e : root.Record} {text : String} {k : ScalarKind}
    {path : Path root (.scalar k)} {v : k.Carrier} :
    (Filter.equal ⟨text, k, path⟩ v).holds e ↔ HasEqual e path v := by
  rw [Filter.holds, Filter.holdsOf]
  exact Option.any_eq_true ..

mutual

theorem FieldType.conditions_hold {root : Fields} {e : root.Record} : ∀ {t : FieldType}
    {text : String} {path : Path root t} {slot : t.Slot} {conditions : List (Filter root)},
    t.conditions text path slot = .ok conditions →
      ((∀ c ∈ conditions, c.holds e) ↔ CoversSlot e t path slot)
  | .scalar k, text, path, none, conditions, h => by
    cases h
    simp [CoversSlot]
  | .scalar k, text, path, some v, conditions, h => by
    cases h
    simp [CoversSlot, holds_equal]
  | .message _ fs, text, path, none, conditions, h => by
    cases h
    simp [CoversSlot]
  | .message _ fs, text, path, some m, conditions, h => by
    rw [Fields.conditions_hold h]
    simp [CoversSlot]
  | .list _, text, path, [], conditions, h => by
    cases h
    simp [CoversSlot]
  | .list _, text, path, _ :: _, conditions, h => (invalidModel_ne_ok h).elim

theorem Fields.conditions_hold {root : Fields} {e : root.Record} : ∀ {fs : Fields} {text : String}
    {reach : {t : FieldType} → fs.At t → Path root t} {r : fs.Record}
    {conditions : List (Filter root)}, Fields.conditions fs text reach r = .ok conditions →
      ((∀ c ∈ conditions, c.holds e) ↔ Covers e reach r)
  | .nil, _, reach, _, _, h => by
    cases h
    refine iff_of_true nofun fun k p => ?_
    cases p with
    | field a => cases a
    | into a p => cases a
  | .cons name t rest, text, reach, (slot, r), conditions, h => by
    simp only [Fields.conditions, bind_eq_ok, pure_eq_ok] at h
    obtain ⟨first, hfirst, others, hothers, rfl⟩ := h
    rw [covers_cons, ← FieldType.conditions_hold hfirst, ← Fields.conditions_hold hothers]
    exact List.forall_mem_append

end

theorem Filters.allHoldOf_ofList {fs : Fields} {m : Option fs.Record} :
    ∀ {filters : List (Filter fs)},
      (ofList filters).allHoldOf m ↔ ∀ f ∈ filters, f.holdsOf m
  | [] => by simp [ofList, allHoldOf]
  | f :: rest => by
    rw [ofList, allHoldOf, Bool.and_eq_true, allHoldOf_ofList, List.forall_mem_cons]

/-- The filter of a record holds of the records that have all its scalars. -/
theorem Filter.holds_ofRecord {fs : Fields} {r e : fs.Record} {f : Filter fs}
    (h : Filter.ofRecord r = .ok f) :
    f.holds e ↔ ∀ k (p : Path fs (.scalar k)) v, p.get r = some v → HasEqual e p v := by
  unfold ofRecord at h
  rw [bind_eq_ok] at h
  obtain ⟨conditions, hconditions, h⟩ := h
  have hall := Fields.conditions_hold (e := e) hconditions
  simp only [Covers, Path.via_field] at hall
  rw [← hall]
  split at h
  · cases h
    simp [holds, holdsOf]
  · cases h
    simp
  · cases h
    rw [holds, holdsOf, Filters.allHoldOf_ofList]
    rfl

end VirtualPeople
