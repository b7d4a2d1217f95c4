import VirtualPeople.Record.Schema

/-!
# What can go wrong

A model is refused while it is built, an event while it is labeled. Each cause is a constructor
that holds what its message names; `Error.message` has the wording.
-/

namespace VirtualPeople

/-- Why a condition is refused. -/
inductive FilterFault
  | opUnset
  | nameUnset
  | valueUnset
  | notScalar
  | notNumeric
  | notMessage
  | noSubFilter
  | severalSubFilters
  | badLiteral (text : String) (kind : FieldKind)

/-- Why a model is refused. -/
inductive ModelFault
  | unknownField (path message : String)
  | filter (fault : FilterFault)
  | repeatedCondition (field : String)
  | noFilter
  | noChoice
  | negativeWeight (weight : Float)
  | weightSum (sum : Float)
  | offsetRange (offset : UInt64)
  | lastId (offset population : UInt64)
  | populationOverflow
  | noPopulation
  | populationRange (total : Nat)
  | multiplicityUnset (setting : String)
  | expectedKind (kind : FieldKind)
  | expectedUnset
  | expectedTwice
  | personIndexKind (kind : FieldKind)
  | maskWithoutEvents
  | maskEmpty
  | maskCollision
  | matrixWithoutRows
  | matrixWithoutColumns
  | matrixSize (probabilities rows columns : Nat)
  | sparseWithoutColumns
  | columnWithoutAttributes (column : Nat)
  | columnWithoutRows (column : Nat)
  | columnSize (column : Nat)
  | mergeWithoutNodes
  | mergeCondition (node : Nat)
  | mergeUpdate (node : Nat)
  | assignmentCondition
  | noAssignment
  | sourceUnset
  | targetUnset
  | assignmentKinds (source : String) (sourceKind : FieldKind) (target : String)
      (targetKind : FieldKind)
  | assignmentKind (kind : FieldKind)
  | psiRange (psi : Float32)
  | shredFieldUnset (role : String)
  | shredFieldKind (role field : String)
  | treeWithoutRoot
  | updateUnset
  | updateTwice
  | nodeKindUnset (node : String)
  | nodeKindTwice (node : String)
  | noBranch
  | branchChild
  | branchSelector
  | mixedSelectors
  | updatesAndMultiplicity
  | indexUnset (node : String)
  | indexTwice (index : UInt32)
  | cycle (index : UInt32)
  | nodeMissing (index : UInt32)
  | noRoot
  | severalRoots (indexes : List UInt32)
  | nodeAfterRoot
  | unattached (indexes : List UInt32)
  | rootAndNodes
  | noNode
  | indexInTree
  | childUnset
  | tooManyNodes

/-- Why an event cannot be labeled. -/
inductive EventFault
  | activitiesPresent
  | noQuantumLabel
  | quantumLabelSize (labels probabilities : Nat)
  | noConditionMatches
  | noColumnMatches
  | noNodeMatches
  | multiplicityUnset
  | multiplicityAboveMax (expected max : Float)
  | multiplicityNegative (expected : Float)
  | personIndexRange (index : Nat) (field : String)
  | randomnessUnset
  | shredTargetUnset

/-- What a built model should never run into. -/
inductive InternalFault
  | choiceRange
  | rowRange
  | wrongKind (kind : ScalarKind) (value message field : String)

inductive Error
  | invalidModel (fault : ModelFault)
  | invalidEvent (fault : EventFault)
  | internal (fault : InternalFault)
  | logFormat (text : String)
  | settings
  | file
  | json

namespace FilterFault

def message : FilterFault → String
  | opUnset => "op is not set"
  | nameUnset => "name is not set"
  | valueUnset => "value is not set"
  | notScalar => "name must refer to a scalar field"
  | notNumeric => "GT and LT require a numeric field"
  | notMessage => "PARTIAL requires a message field"
  | noSubFilter => "sub_filters is empty"
  | severalSubFilters => "NOT requires exactly one sub filter"
  | badLiteral text kind => s!"value \"{text}\" is not a valid {kind.name}"

end FilterFault

/-- Indexes between brackets. -/
def indexList (indexes : List UInt32) : String :=
  "[" ++ String.intercalate ", " (indexes.map fun i => toString i.toNat) ++ "]"

namespace ModelFault

def message : ModelFault → String
  | unknownField path message => s!"invalid field name \"{path}\" for message {message}"
  | filter fault => s!"{fault.message} in field filter:"
  | repeatedCondition field => s!"repeated field {field} cannot be used as a match condition"
  | noFilter => "The given field filter configs is empty."
  | noChoice => "The given distribution is empty."
  | negativeWeight weight => s!"Negative probability {doubleText weight} is provided."
  | weightSum sum => s!"Probabilities do not sum to 1. {doubleText sum}"
  | offsetRange offset => s!"population_offset {offset.toNat} is out of range"
  | lastId offset population =>
    s!"The last virtual person id of pool ({offset.toNat}, {population.toNat}) overflows"
  | populationOverflow => "The total population overflows"
  | noPopulation => "The total population of the pools is 0. The model is invalid."
  | populationRange total =>
    s!"The total population of the pools is {total}, larger than 2147483647"
  | multiplicityUnset setting => s!"Multiplicity must set {setting}."
  | expectedKind kind => s!"Unsupported field type for multiplicity: {kind.name}"
  | expectedUnset => "Multiplicity must set multiplicity_ref."
  | expectedTwice =>
    "Multiplicity must set only one of expected_multiplicity and expected_multiplicity_field."
  | personIndexKind kind => s!"Invalid type for person_index_field: {kind.name}"
  | maskWithoutEvents => "The events is empty when building HashFieldMaskMatcher."
  | maskEmpty => "The hashFieldMask is empty when building HashFieldMaskMatcher."
  | maskCollision => "Multiple events have the same hash when applying hash field mask."
  | matrixWithoutRows => "No row exists in UpdateMatrix"
  | matrixWithoutColumns => "No column exists in UpdateMatrix"
  | matrixSize probabilities rows columns =>
    s!"Probabilities count must equal to row * column: {probabilities} != {rows} * {columns}"
  | sparseWithoutColumns => "No column exists in SparseUpdateMatrix"
  | columnWithoutAttributes column =>
    s!"No column_attrs in the column {column} in SparseUpdateMatrix"
  | columnWithoutRows column => s!"No row exists in the column {column} in SparseUpdateMatrix"
  | columnSize column =>
    s!"Rows and probabilities are not aligned in the column {column} in SparseUpdateMatrix"
  | mergeWithoutNodes => "No nodes in ConditionalMerge"
  | mergeCondition node => s!"No condition in the node {node} in ConditionalMerge"
  | mergeUpdate node => s!"No update in the node {node} in ConditionalMerge"
  | assignmentCondition => "Condition is not set in ConditionalAssignment"
  | noAssignment => "No assignments in ConditionalAssignment"
  | sourceUnset => "All assignments must have source_field set in ConditionalAssignment"
  | targetUnset => "All assignments must have target_field set in ConditionalAssignment"
  | assignmentKinds source sourceKind target targetKind =>
    "All assignments must have source_field and target_field being the same type in " ++
      s!"ConditionalAssignment: {source} is {sourceKind.name}, {target} is {targetKind.name}"
  | assignmentKind kind => s!"Unsupported field type for ConditionalAssignment: {kind.name}"
  | psiRange psi => s!"Psi is not in [0, 1] in GeometricShredder: {singleText psi}"
  | shredFieldUnset role => s!"{role} is not set in GeometricShredder"
  | shredFieldKind role field => s!"{role} type is not uint64 in GeometricShredder: {field}"
  | treeWithoutRoot => "UpdateTree must set root."
  | updateUnset => "config.update is not set."
  | updateTwice => "AttributesUpdater must set exactly one update."
  | nodeKindUnset node => s!"Node type is not set: {node}"
  | nodeKindTwice node => s!"CompiledNode must set exactly one node type: {node}"
  | noBranch => "BranchNode must have at least 1 branch."
  | branchChild => "BranchNode must have one of node_index and node."
  | branchSelector => "BranchNode must have one of chance and condition."
  | mixedSelectors => "All branches should use the same select_by type."
  | updatesAndMultiplicity => "BranchNode cannot have both updaters and multiplicity."
  | indexUnset node => s!"Only the root node may omit index: {node}"
  | indexTwice index => s!"Duplicated indexes: {index.toNat}"
  | cycle index => s!"Cycle detected at node index {index.toNat}"
  | nodeMissing index =>
    s!"The ModelNode object of the child node index {index.toNat} is not provided."
  | noRoot => "Cannot find root node."
  | severalRoots indexes => s!"Only 1 root node is expected, but got {indexList indexes}"
  | nodeAfterRoot => "No node is allowed after the root node."
  | unattached indexes => s!"Some nodes are not in the model tree: {indexList indexes}"
  | rootAndNodes => "Model must set only one of root and nodes"
  | noNode => "Model has no nodes"
  | indexInTree => "Single node representation shouldn't use node_index:"
  | childUnset => "branch child_node is not set:"
  | tooManyNodes => "Too many nodes for node_index"

end ModelFault

namespace EventFault

def message : EventFault → String
  | activitiesPresent => "virtual_person_activities should only be created in leaf nodes."
  | noQuantumLabel => "Empty quantum label."
  | quantumLabelSize labels probabilities =>
    "The sizes of labels and probabilities are different in quantum label: " ++
      s!"{labels} != {probabilities}"
  | noConditionMatches => "No condition matches the input event."
  | noColumnMatches => "No column matching for event:"
  | noNodeMatches => "No node matching for event:"
  | multiplicityUnset => "The multiplicity field is not set."
  | multiplicityAboveMax expected max =>
    s!"Expected multiplicity = {doubleText expected}, which exceeds the specified max value = " ++
      doubleText max
  | multiplicityNegative expected =>
    s!"Expected multiplicity = {doubleText expected}, but multiplicity must >= 0."
  | personIndexRange index field => s!"person index {index} does not fit {field}"
  | randomnessUnset => "The randomness field is not set in the event."
  | shredTargetUnset => "The target field is not set in the event."

end EventFault

namespace InternalFault

def message : InternalFault → String
  | choiceRange => "The returned index is out of range."
  | rowRange => "The returned row index is out of range."
  | wrongKind kind value message field =>
    s!"cannot assign {kind.name} value {value} to {message}.{field}"

end InternalFault

namespace Error

def message : Error → String
  | invalidModel fault => s!"Invalid model: {fault.message}"
  | invalidEvent fault => s!"Invalid event: {fault.message}"
  | internal fault => s!"Internal error: {fault.message}"
  | logFormat text => s!"Configuration error: unknown log format: {text}"
  | settings => "Configuration error"
  | file => "I/O error"
  | json => "JSON error"

end Error

/-- Fails with a fault of the model. -/
def invalidModel {α : Type} (fault : ModelFault) : Except Error α := .error (.invalidModel fault)

/-- Fails with a fault of the event. -/
def invalidEvent {α : Type} (fault : EventFault) : Except Error α := .error (.invalidEvent fault)

end VirtualPeople
