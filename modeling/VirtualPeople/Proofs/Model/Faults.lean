import VirtualPeople.Model.Arena
import VirtualPeople.Proofs.Outcome
import Mathlib.Tactic.SplitIfs

/-!
# What the parts of a node are refused for

The parts of a node are built without an arena. They are refused, if they are, for a fault of the
model that says nothing of its references (`OwnFaults`), so a reference that is refused can be told
from all that is wrong with a node itself.
-/

namespace VirtualPeople

/-- A fault that a reference is refused for. -/
def ModelFault.OfReference : ModelFault → Prop
  | cycle _ => True
  | nodeMissing _ => True
  | _ => False

variable {α β : Type}

/-- Fails, if it does, with a fault of the model that no reference is refused for. -/
def OwnFaults (x : Except Error α) : Prop :=
  ∀ err, x = .error err → ∃ fault, err = .invalidModel fault ∧ ¬ fault.OfReference

namespace OwnFaults

theorem ok (v : α) : OwnFaults (.ok v) := nofun

theorem fault {fault : ModelFault} (h : ¬ fault.OfReference) :
    OwnFaults (invalidModel fault : Except Error α) := by
  rintro _ ⟨⟩
  exact ⟨fault, rfl, h⟩

theorem bind {x : Except Error α} {f : α → Except Error β} (hx : OwnFaults x)
    (hf : ∀ v, OwnFaults (f v)) : OwnFaults (x >>= f) := by
  rcases x with err | v
  · rintro _ ⟨⟩
    exact hx err rfl
  · exact hf v

theorem mapM {f : α → Except Error β} (hf : ∀ v, OwnFaults (f v)) :
    ∀ xs : List α, OwnFaults (xs.mapM f)
  | [] => ok []
  | x :: xs => by
    rw [List.mapM_cons]
    exact (hf x).bind fun y => (mapM hf xs).bind fun ys => ok (y :: ys)

end OwnFaults

theorem MessageType.field_ownFaults (m : MessageType) (text : String) :
    OwnFaults (m.field text) := by
  unfold field
  split
  · exact .ok _
  · exact .fault id

namespace FilterSpec

theorem field_ownFaults (m : MessageType) : ∀ name, OwnFaults (field m name)
  | none => .fault id
  | some name => m.field_ownFaults name

theorem scalarField_ownFaults (m : MessageType) (name : Option String) :
    OwnFaults (scalarField m name) := by
  refine (field_ownFaults m name).bind fun f => ?_
  cases f with
  | scalar f => exact .ok f
  | message f => exact .fault id

theorem numericField_ownFaults (m : MessageType) (name : Option String) :
    OwnFaults (numericField m name) := by
  refine (scalarField_ownFaults m name).bind fun f => ?_
  split_ifs
  · exact .ok f
  · exact .fault id

theorem messageField_ownFaults (m : MessageType) (name : Option String) :
    OwnFaults (messageField m name) := by
  refine (field_ownFaults m name).bind fun f => ?_
  cases f with
  | scalar f => exact .fault id
  | message f => exact .ok f

theorem literalText_ownFaults : ∀ value, OwnFaults (literalText value)
  | none => .fault id
  | some text => .ok text

theorem literal_ownFaults (k : ScalarKind) (text : String) : OwnFaults (literal k text) := by
  unfold literal
  split
  · exact .ok _
  · exact .fault id

mutual

theorem build_ownFaults : ∀ (m : MessageType) (spec : FilterSpec), OwnFaults (spec.build m)
  | m, ⟨op, name, value, subFilters⟩ => by
    unfold build
    cases op with
    | invalid => exact .fault id
    | always => exact .ok _
    | has => exact (field_ownFaults m name).bind fun f => .ok _
    | equal =>
      exact (scalarField_ownFaults m name).bind fun f => (literalText_ownFaults value).bind
        fun text => (literal_ownFaults f.kind text).bind fun v => .ok _
    | greater =>
      exact (numericField_ownFaults m name).bind fun f => (literalText_ownFaults value).bind
        fun text => (literal_ownFaults f.kind text).bind fun v => .ok _
    | less =>
      exact (numericField_ownFaults m name).bind fun f => (literalText_ownFaults value).bind
        fun text => (literal_ownFaults f.kind text).bind fun v => .ok _
    | oneOf =>
      exact (scalarField_ownFaults m name).bind fun f => (literalText_ownFaults value).bind
        fun text => (OwnFaults.mapM (literal_ownFaults f.kind) _).bind fun vs => .ok _
    | all => exact (parts_ownFaults m subFilters).bind fun fs => .ok _
    | any => exact (parts_ownFaults m subFilters).bind fun fs => .ok _
    | not =>
      refine (parts_ownFaults m subFilters).bind fun fs => ?_
      split
      · exact .ok _
      · exact .fault id
    | within =>
      exact (messageField_ownFaults m name).bind fun f =>
        (parts_ownFaults ⟨f.name, f.fields⟩ subFilters).bind fun fs => .ok _

theorem parts_ownFaults : ∀ (m : MessageType) (specs : List FilterSpec), OwnFaults (parts m specs)
  | _, [] => .fault id
  | m, spec :: rest => by
    unfold parts
    exact (build_ownFaults m spec).bind fun f => (buildAll_ownFaults m rest).bind fun fs => .ok _

theorem buildAll_ownFaults : ∀ (m : MessageType) (specs : List FilterSpec),
    OwnFaults (buildAll m specs)
  | _, [] => .ok _
  | m, spec :: rest => by
    unfold buildAll
    exact (build_ownFaults m spec).bind fun f => (buildAll_ownFaults m rest).bind fun fs => .ok _

end

end FilterSpec

mutual

theorem FieldType.conditions_ownFaults {root : Fields} : ∀ (t : FieldType) (text : String)
    (path : Path root t) (slot : t.Slot), OwnFaults (t.conditions text path slot)
  | .scalar _, _, _, none => .ok _
  | .scalar _, _, _, some _ => .ok _
  | .message _ _, _, _, none => .ok _
  | .message _ fs, text, path, some r =>
    Fields.conditions_ownFaults fs (text ++ ".") (fun a => path.andThen (.field a)) r
  | .list _, _, _, [] => .ok _
  | .list _, _, _, _ :: _ => .fault id

theorem Fields.conditions_ownFaults {root : Fields} : ∀ (fs : Fields) (text : String)
    (reach : {t : FieldType} → fs.At t → Path root t) (r : fs.Record),
    OwnFaults (Fields.conditions fs text reach r)
  | .nil, _, _, _ => .ok _
  | .cons name t rest, text, reach, (slot, r) => by
    unfold Fields.conditions
    exact (FieldType.conditions_ownFaults t (text ++ name) (reach .here) slot).bind fun first =>
      (Fields.conditions_ownFaults rest text (fun a => reach (.there a)) r).bind fun others =>
        .ok _

end

theorem Filter.ofRecord_ownFaults {fs : Fields} (r : fs.Record) :
    OwnFaults (Filter.ofRecord r) := by
  refine (Fields.conditions_ownFaults fs "" .field r).bind fun conditions => ?_
  split
  · exact .ok _
  · exact .ok _
  · exact .ok _

theorem Distribution.ofChoices_ownFaults (choices : List Choice) :
    OwnFaults (Distribution.ofChoices choices) := by
  unfold Distribution.ofChoices
  split
  · exact .fault id
  · split
    · exact .fault id
    · dsimp only
      split_ifs
      · exact .ok _
      · exact .fault id

theorem Distribution.ofWeights_ownFaults (weights : List Float) :
    OwnFaults (Distribution.ofWeights weights) :=
  Distribution.ofChoices_ownFaults _

theorem IdSpace.layOut_ownFaults : ∀ (pools : List Pool) (start : Nat),
    OwnFaults (IdSpace.layOut start pools)
  | [], _ => .ok _
  | ⟨offset, population⟩ :: rest, start => by
    unfold IdSpace.layOut
    split_ifs
    · exact layOut_ownFaults rest start
    · exact .fault id
    · exact .fault id
    · exact .fault id
    · exact (layOut_ownFaults rest _).bind fun laid => .ok _

theorem IdSpace.ofPools_ownFaults (pools : List Pool) : OwnFaults (IdSpace.ofPools pools) := by
  refine (IdSpace.layOut_ownFaults pools 0).bind fun laid => ?_
  split
  · exact .fault id
  · split_ifs
    · exact .fault id
    · exact .ok _

theorem PopulationSpec.build_ownFaults (p : PopulationSpec) : OwnFaults p.build := by
  unfold PopulationSpec.build
  dsimp only
  split_ifs
  · exact .ok _
  · exact (IdSpace.ofPools_ownFaults p.pools).bind fun space => .ok _

namespace MultiplicitySpec

theorem required_ownFaults (name : String) : ∀ v : Option α, OwnFaults (required name v)
  | none => .fault id
  | some v => .ok v

theorem buildExpected_ownFaults : ∀ (value : Option Float) (text : Option String),
    OwnFaults (buildExpected value text)
  | some _, none => .ok _
  | none, none => .fault id
  | some _, some _ => .fault id
  | none, some text => by
    unfold buildExpected
    refine (MessageType.field_ownFaults _ text).bind fun field => ?_
    cases field with
    | scalar f =>
      dsimp only
      split_ifs
      · exact .ok _
      · exact .fault id
    | message f => exact .fault id

theorem buildPersonIndex_ownFaults (text : String) : OwnFaults (buildPersonIndex text) := by
  refine (MessageType.field_ownFaults _ text).bind fun field => ?_
  cases field with
  | scalar f =>
    dsimp only
    split_ifs
    · exact .ok _
    · exact .fault id
  | message f => exact .fault id

theorem build_ownFaults (m : MultiplicitySpec) : OwnFaults m.build :=
  (required_ownFaults _ _).bind fun _ => (required_ownFaults _ _).bind fun _ =>
    (required_ownFaults _ _).bind fun _ => (required_ownFaults _ _).bind fun _ =>
      (buildExpected_ownFaults _ _).bind fun _ => (buildPersonIndex_ownFaults _).bind fun _ =>
        .ok _

end MultiplicitySpec

theorem MaskTable.fill_ownFaults (fields : List (Field Schema.event.fields)) :
    ∀ (columns : List Event) (seen : List (UInt64 × Nat)),
      OwnFaults (MaskTable.fill fields seen columns)
  | [], _ => .ok _
  | e :: rest, seen => by
    unfold MaskTable.fill
    dsimp only
    split
    · exact .fault id
    · exact fill_ownFaults fields rest _

theorem MaskTable.build_ownFaults (columns : List Event) (mask : FieldMask) :
    OwnFaults (MaskTable.build columns mask) := by
  unfold MaskTable.build
  split_ifs
  · exact .fault id
  · exact .fault id
  · exact (OwnFaults.mapM (MessageType.field_ownFaults _) mask.paths).bind fun fields =>
      (MaskTable.fill_ownFaults _ columns []).bind fun table => .ok _

theorem ColumnMatcher.build_ownFaults (columns : List Event) :
    ∀ mask, OwnFaults (ColumnMatcher.build columns mask)
  | some mask => (MaskTable.build_ownFaults columns mask).bind fun _ => .ok _
  | none => (OwnFaults.mapM Filter.ofRecord_ownFaults columns).bind fun _ => .ok _

theorem MatrixSpec.build_ownFaults (m : MatrixSpec) : OwnFaults m.build := by
  unfold MatrixSpec.build
  split_ifs
  · exact .fault id
  · exact .fault id
  · exact .fault id
  · exact (ColumnMatcher.build_ownFaults m.columns m.mask).bind fun matcher =>
      (OwnFaults.mapM (fun c => Distribution.ofWeights_ownFaults (m.column c)) _).bind
        fun distributions => .ok _

theorem SparseColumnSpec.check_ownFaults (place : Nat) (c : SparseColumnSpec) :
    OwnFaults (c.check place) := by
  unfold SparseColumnSpec.check
  split
  · exact .fault id
  · split_ifs
    · exact .fault id
    · exact .fault id
    · exact .ok _

theorem SparseColumnSpec.checkAll_ownFaults : ∀ (columns : List SparseColumnSpec) (place : Nat),
    OwnFaults (SparseColumnSpec.checkAll place columns)
  | [], _ => .ok _
  | c :: rest, place =>
    (c.check_ownFaults place).bind fun _ => (checkAll_ownFaults rest (place + 1)).bind fun _ =>
      .ok _

theorem SparseMatrixSpec.build_ownFaults (m : SparseMatrixSpec) : OwnFaults m.build := by
  unfold SparseMatrixSpec.build
  split_ifs
  · exact .fault id
  · exact (SparseColumnSpec.checkAll_ownFaults m.columns 0).bind fun attributes =>
      (ColumnMatcher.build_ownFaults attributes m.mask).bind fun matcher =>
        (OwnFaults.mapM (fun _ => Distribution.ofWeights_ownFaults _) m.columns).bind
          fun distributions => .ok _

theorem MergeCaseSpec.build_ownFaults (place : Nat) (c : MergeCaseSpec) :
    OwnFaults (c.build place) := by
  unfold MergeCaseSpec.build
  split
  · exact .fault id
  · exact .fault id
  · exact (FilterSpec.build_ownFaults _ _).bind fun _ => .ok _

theorem MergeCaseSpec.buildAll_ownFaults : ∀ (cases : List MergeCaseSpec) (place : Nat),
    OwnFaults (MergeCaseSpec.buildAll place cases)
  | [], _ => .ok _
  | c :: rest, place =>
    (c.build_ownFaults place).bind fun _ => (buildAll_ownFaults rest (place + 1)).bind fun _ =>
      .ok _

theorem ConditionalMergeSpec.build_ownFaults (m : ConditionalMergeSpec) : OwnFaults m.build := by
  unfold ConditionalMergeSpec.build
  split_ifs
  · exact .fault id
  · exact (MergeCaseSpec.buildAll_ownFaults m.cases 0).bind fun _ => .ok _

theorem AssignmentSpec.pair_ownFaults (source target : Field Schema.event.fields) :
    OwnFaults (AssignmentSpec.pair source target) := by
  unfold AssignmentSpec.pair
  split
  · split_ifs
    · exact .ok _
    · exact .fault id
    · exact .fault id
  · exact .fault id
  · exact .fault id

theorem AssignmentSpec.build_ownFaults (a : AssignmentSpec) : OwnFaults a.build := by
  unfold AssignmentSpec.build
  split
  · exact .fault id
  · exact .fault id
  · exact (MessageType.field_ownFaults _ _).bind fun source =>
      (MessageType.field_ownFaults _ _).bind fun target => AssignmentSpec.pair_ownFaults _ _

theorem ConditionalAssignmentSpec.build_ownFaults (a : ConditionalAssignmentSpec) :
    OwnFaults a.build := by
  unfold ConditionalAssignmentSpec.build
  split
  · exact .fault id
  · split_ifs
    · exact .fault id
    · exact (FilterSpec.build_ownFaults _ _).bind fun _ =>
        (OwnFaults.mapM AssignmentSpec.build_ownFaults a.assignments).bind fun _ => .ok _

theorem ShredderSpec.wordField_ownFaults (role : String) :
    ∀ text, OwnFaults (ShredderSpec.wordField role text)
  | none => .fault id
  | some text => by
    refine (MessageType.field_ownFaults _ text).bind fun field => ?_
    split
    · split_ifs
      · exact .ok _
      · exact .fault id
    · exact .fault id

theorem ShredderSpec.build_ownFaults (s : ShredderSpec) : OwnFaults s.build := by
  unfold ShredderSpec.build
  dsimp only
  split_ifs
  · exact (ShredderSpec.wordField_ownFaults _ _).bind fun _ =>
      (ShredderSpec.wordField_ownFaults _ _).bind fun _ => .ok _
  · exact .fault id

theorem NodeSpec.sort_ownFaults (n : NodeSpec) : OwnFaults n.sort := by
  unfold NodeSpec.sort
  split
  · exact .ok _
  · exact .ok _
  · exact .ok _
  · exact .fault id
  · exact .fault id

theorem UpdateSpec.sort_ownFaults (u : UpdateSpec) : OwnFaults u.sort := by
  unfold UpdateSpec.sort
  split
  · exact .fault id
  · exact .ok _
  · exact .fault id

theorem EdgeSpec.selector_ownFaults (e : EdgeSpec) : OwnFaults e.selector := by
  unfold EdgeSpec.selector
  split
  · exact .ok _
  · exact .ok _
  · exact .fault id

theorem SelectorSpec.asChance_ownFaults : ∀ s : SelectorSpec, OwnFaults s.asChance
  | .chance _ => .ok _
  | .condition _ => .fault id

theorem SelectorSpec.asCondition_ownFaults : ∀ s : SelectorSpec, OwnFaults s.asCondition
  | .chance _ => .fault id
  | .condition c => FilterSpec.build_ownFaults _ c

theorem BranchSpec.selector_ownFaults (edges : List EdgeSpec) (seed : Option String) :
    OwnFaults (BranchSpec.selector edges seed) := by
  refine (OwnFaults.mapM EdgeSpec.selector_ownFaults edges).bind fun selectors => ?_
  split
  · exact (OwnFaults.mapM SelectorSpec.asCondition_ownFaults _).bind fun _ => .ok _
  · exact (OwnFaults.mapM SelectorSpec.asChance_ownFaults _).bind fun _ =>
      (Distribution.ofWeights_ownFaults _).bind fun _ => .ok _

end VirtualPeople
