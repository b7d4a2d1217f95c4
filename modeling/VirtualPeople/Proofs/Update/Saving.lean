import VirtualPeople.Proofs.Record.Decoding
import VirtualPeople.Proofs.Update.Masking
import VirtualPeople.Update.ConditionalAssignment
import VirtualPeople.Update.ConditionalMerge
import VirtualPeople.Update.Matrix
import VirtualPeople.Update.Shredder

/-!
# Filters and updates are read back

The written form of a filter is what its decoder reads from its JSON, and so is that of an update
whose numbers are finite, down to the events in it: an unset field differs from one that is set to
its default, an empty message from one that is unset.
-/

namespace VirtualPeople

open Json

namespace FilterSpec

theorem lookup_name (op : FilterOp) : FilterOp.table.lookup op.name = some op := by
  cases op <;> decide

theorem listJson_eq_map (specs : List FilterSpec) : listJson specs = specs.map toJson := by
  induction specs with
  | nil => rfl
  | cons spec rest ih => exact congrArg (spec.toJson :: ·) ih

/-- The values of the fields. -/
def values (s : FilterSpec) : List (Option Json) :=
  [some (.string s.op.name), s.name.map .string, s.value.map .string,
    if s.subFilters.isEmpty then none else some (.array (s.subFilters.map toJson))]

theorem toJson_eq (s : FilterSpec) : s.toJson = .object (membersOf fieldNames s.values) := by
  rcases s with ⟨op, name, value, subFilters⟩
  simp only [toJson, listMember_eq, listJson_eq_map, List.isEmpty_map, fieldNames, values,
    membersOf, member_some, List.append_assoc, List.append_nil, List.cons_append, List.nil_append]

theorem depth_subFilter_lt {s part : FilterSpec} (h : part ∈ s.subFilters) :
    part.toJson.depth < s.toJson.depth := by
  have hpart := depth_lt_of_mem (List.mem_map_of_mem (f := toJson) h)
  have hvalue : some (.array (s.subFilters.map toJson)) ∈ s.values := by
    rw [values, if_neg (by simpa using List.ne_nil_of_mem h)]
    simp
  rw [toJson_eq s]
  exact hpart.trans (depth_lt_of_some_mem rfl hvalue)

theorem encodesTo : ∀ (k : Nat) (s : FilterSpec), s.toJson.depth ≤ k →
    Encodes (decoderTo k) s.toJson s
  | 0, s, h => by
    rw [toJson_eq] at h
    exact absurd h (Nat.not_succ_le_zero _)
  | k + 1, ⟨op, name, value, subFilters⟩, h => by
    have hop : FieldEncodes (Decoder.orElse (Decoder.oneOf FilterOp.table) .invalid)
        (some (.string op.name)) op := .given (.oneOf (lookup_name op))
    have hparts : ∀ part ∈ subFilters, Encodes (decoderTo k) part.toJson part := fun part hpart =>
      encodesTo k part (Nat.le_of_lt_succ ((depth_subFilter_lt hpart).trans_le h))
    refine .fields [⟨hop⟩, ⟨.string name⟩, ⟨.string value⟩, ⟨.list hparts⟩] (by decide) rfl
      (toJson_eq _) fun g n h => ?_
    simp only [List.forall_mem_cons] at h
    simp only [List.map, h]
    rfl

theorem encodes (s : FilterSpec) : Encodes decoder s.toJson s :=
  have h := encodesTo s.toJson.depth s le_rfl
  ⟨h.readable, h.ne_null, fun hg n hn => (encodesTo n s hn).reads hg n hn⟩

end FilterSpec

/-- Whether JSON has a number for every scalar of an event. -/
def Event.finite (e : Event) : Bool := Schema.event.fields.finite e

theorem Event.encodes {e : Event} (h : e.finite) : Encodes decoder e.toJson e :=
  Fields.encodes event_distinct h

namespace FieldEncodes

theorem event {o : Option Event} (h : o.all Event.finite) :
    FieldEncodes (Decoder.optional Event.decoder) (o.map Event.toJson) o :=
  .optional fun e he => Event.encodes ((Option.all_eq_true _ _).1 h e he)

theorem events {es : List Event} (h : es.all Event.finite) :
    FieldEncodes (Decoder.orElse (Decoder.list Event.decoder) []) (some (eventsJson es)) es :=
  .items fun e he => Event.encodes (List.all_eq_true.1 h e he)

theorem weights {ws : List Float32} (h : ws.all fun w => isFinite (widen w)) :
    FieldEncodes (Decoder.orElse (Decoder.list Decoder.single) []) (some (weightsJson ws)) ws :=
  .items fun w hw => .single (List.all_eq_true.1 h w hw)

theorem filter (o : Option FilterSpec) :
    FieldEncodes (Decoder.optional FilterSpec.decoder) (o.map FilterSpec.toJson) o :=
  .optional fun s _ => s.encodes

end FieldEncodes

theorem AssignmentSpec.encodes (a : AssignmentSpec) : Encodes decoder a.toJson a := by
  refine .fields [⟨.string a.source⟩, ⟨.string a.target⟩] (by decide) rfl ?_ fun g n h => ?_
  · simp only [toJson, List.map, membersOf, List.append_nil]
  · simp only [List.forall_mem_cons] at h
    simp only [List.map, h]
    rfl

theorem ConditionalAssignmentSpec.encodes (a : ConditionalAssignmentSpec) :
    Encodes decoder a.toJson a := by
  have hassignments : ∀ assignment ∈ a.assignments,
      Encodes AssignmentSpec.decoder assignment.toJson assignment :=
    fun assignment _ => assignment.encodes
  refine .fields [⟨.filter a.condition⟩, ⟨.items hassignments⟩] (by decide) rfl ?_ fun g n h => ?_
  · simp only [toJson, List.map, membersOf, member_some, List.append_nil]
  · simp only [List.forall_mem_cons] at h
    simp only [List.map, h]
    rfl

/-- Whether JSON has a number for every scalar of a case of a merge. -/
def MergeCaseSpec.finite (c : MergeCaseSpec) : Bool := c.update.all Event.finite

theorem MergeCaseSpec.encodes {c : MergeCaseSpec} (h : c.finite) :
    Encodes decoder c.toJson c := by
  refine .fields [⟨.filter c.condition⟩, ⟨.event h⟩] (by decide) rfl ?_ fun g n h => ?_
  · simp only [toJson, List.map, membersOf, List.append_nil]
  · simp only [List.forall_mem_cons] at h
    simp only [List.map, h]
    rfl

def ConditionalMergeSpec.finite (m : ConditionalMergeSpec) : Bool :=
  m.cases.all MergeCaseSpec.finite

theorem ConditionalMergeSpec.encodes {m : ConditionalMergeSpec} (h : m.finite) :
    Encodes decoder m.toJson m := by
  have hcases : ∀ c ∈ m.cases, Encodes MergeCaseSpec.decoder c.toJson c :=
    fun c hc => MergeCaseSpec.encodes (List.all_eq_true.1 h c hc)
  refine .fields [⟨.items hcases⟩, ⟨.bool m.passThrough⟩] (by decide) rfl ?_ fun g n h => ?_
  · simp only [toJson, List.map, membersOf, member_some, List.append_nil, List.cons_append,
      List.nil_append]
  · simp only [List.forall_mem_cons] at h
    simp only [List.map, h]
    rfl

theorem FieldMask.encodes (m : FieldMask) : Encodes decoder m.toJson m := by
  have hpaths : ∀ path ∈ m.paths, Encodes Decoder.string (.string path) path :=
    fun path _ => .string path
  refine .fields [⟨.items hpaths⟩] (by decide) rfl rfl fun g n h => ?_
  simp only [List.forall_mem_cons] at h
  simp only [List.map, h]
  rfl

theorem FieldEncodes.mask (o : Option FieldMask) :
    FieldEncodes (Decoder.optional FieldMask.decoder) (o.map FieldMask.toJson) o :=
  .optional fun m _ => m.encodes

def MatrixSpec.finite (m : MatrixSpec) : Bool :=
  m.columns.all Event.finite && m.rows.all Event.finite &&
    m.probabilities.all fun w => isFinite (widen w)

theorem MatrixSpec.encodes {m : MatrixSpec} (h : m.finite) : Encodes decoder m.toJson m := by
  simp only [finite, Bool.and_eq_true] at h
  obtain ⟨⟨hcolumns, hrows⟩, hweights⟩ := h
  refine .fields [⟨.events hcolumns⟩, ⟨.events hrows⟩, ⟨.weights hweights⟩, ⟨.string m.seed⟩,
    ⟨.bool m.passThrough⟩, ⟨.mask m.mask⟩] (by decide) rfl ?_ fun g n h => ?_
  · simp only [toJson, fieldNames, List.map, membersOf, member_some, List.append_assoc,
      List.append_nil, List.cons_append, List.nil_append]
  · simp only [List.forall_mem_cons] at h
    simp only [List.map, h]
    rfl

def SparseColumnSpec.finite (c : SparseColumnSpec) : Bool :=
  c.attributes.all Event.finite && c.rows.all Event.finite &&
    c.probabilities.all fun w => isFinite (widen w)

theorem SparseColumnSpec.encodes {c : SparseColumnSpec} (h : c.finite) :
    Encodes decoder c.toJson c := by
  simp only [finite, Bool.and_eq_true] at h
  obtain ⟨⟨hattributes, hrows⟩, hweights⟩ := h
  refine .fields [⟨.event hattributes⟩, ⟨.events hrows⟩, ⟨.weights hweights⟩] (by decide) rfl ?_
    fun g n h => ?_
  · simp only [toJson, fieldNames, List.map, membersOf, member_some, List.append_nil,
      List.cons_append, List.nil_append]
  · simp only [List.forall_mem_cons] at h
    simp only [List.map, h]
    rfl

def SparseMatrixSpec.finite (m : SparseMatrixSpec) : Bool :=
  m.columns.all SparseColumnSpec.finite

theorem SparseMatrixSpec.encodes {m : SparseMatrixSpec} (h : m.finite) :
    Encodes decoder m.toJson m := by
  have hcolumns : ∀ c ∈ m.columns, Encodes SparseColumnSpec.decoder c.toJson c :=
    fun c hc => SparseColumnSpec.encodes (List.all_eq_true.1 h c hc)
  refine .fields [⟨.items hcolumns⟩, ⟨.string m.seed⟩, ⟨.bool m.passThrough⟩, ⟨.mask m.mask⟩]
    (by decide) rfl ?_ fun g n h => ?_
  · simp only [toJson, fieldNames, List.map, membersOf, member_some, List.append_assoc,
      List.append_nil, List.cons_append, List.nil_append]
  · simp only [List.forall_mem_cons] at h
    simp only [List.map, h]
    rfl

def ShredderSpec.finite (s : ShredderSpec) : Bool := s.psi.all fun psi => isFinite (widen psi)

theorem ShredderSpec.encodes {s : ShredderSpec} (h : s.finite) : Encodes decoder s.toJson s := by
  refine .fields [⟨.single h⟩, ⟨.string s.randomness⟩, ⟨.string s.target⟩, ⟨.string s.seed⟩]
    (by decide) rfl ?_ fun g n h => ?_
  · simp only [toJson, fieldNames, List.map, membersOf, List.append_assoc, List.append_nil]
  · simp only [List.forall_mem_cons] at h
    simp only [List.map, h]
    rfl

end VirtualPeople
