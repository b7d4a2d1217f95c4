import VirtualPeople.Distribution
import VirtualPeople.Event
import VirtualPeople.Pools

/-!
# Leaves that assign a person

A leaf adds one activity to an event that has none: an id from its pools, and a label. The label
is collapsed from the quantum labels of the event, one candidate of each, and then overlaid with
the label of the event. The empty pool assigns no id.
-/

namespace VirtualPeople

/-- The written form of a leaf. -/
structure PopulationSpec where
  pools : List Pool
  seed : Option String

/-- A leaf; without ids it is the empty pool. -/
structure Population where
  ids : Option IdSpace
  seed : String

namespace Pool

def fieldNames : List String := ["population_offset", "total_population"]

def decoder : Decoder Pool := Decoder.record fieldNames fun n values =>
  match values with
  | [offset, population] => do
    return ⟨← Decoder.orElse Decoder.uint64 0 n offset,
      ← Decoder.orElse Decoder.uint64 0 n population⟩
  | _ => none

def toJson (p : Pool) : Json :=
  .object [("population_offset", .ofNat p.offset.toNat),
    ("total_population", .ofNat p.population.toNat)]

end Pool

namespace PopulationSpec

def fieldNames : List String := ["pools", "random_seed"]

def decoder : Decoder PopulationSpec := Decoder.record fieldNames fun n values =>
  match values with
  | [pools, seed] => do
    return ⟨← Decoder.orElse (Decoder.list Pool.decoder) [] n pools,
      ← Decoder.optional Decoder.string n seed⟩
  | _ => none

def toJson (p : PopulationSpec) : Json :=
  .object (("pools", .array (p.pools.map Pool.toJson)) ::
    Json.member "random_seed" (p.seed.map .string))

/-- The leaf that is written; a single pool without offset and people is the empty pool. -/
def build (p : PopulationSpec) : Except Error Population := do
  let seed := p.seed.getD ""
  if p.pools = [⟨0, 0⟩] then return ⟨none, seed⟩
  else return ⟨some (← IdSpace.ofPools p.pools), seed⟩

end PopulationSpec

namespace QuantumLabel

/-- The candidate that is chosen; `suffix` is the id of the person, or the fingerprint if there is
no id. -/
def collapse (suffix : String) (q : QuantumLabel) : Except Error PersonLabel := do
  if q.labels.isEmpty then invalidEvent .noQuantumLabel
  else if q.labels.length ≠ q.probabilities.length then
    invalidEvent (.quantumLabelSize q.labels.length q.probabilities.length)
  else
    let candidates ← Distribution.ofWeights q.probabilities
    match q.labels[candidates.pick ("quantum-label-collapse-" ++ q.seed.getD "" ++ suffix)]? with
    | some label => return label
    | none => .error (.internal .choiceRange)

/-- The chosen candidates merged in order, later ones over earlier ones. -/
def collapseAll (suffix : String) (label : PersonLabel) :
    List QuantumLabel → Except Error PersonLabel
  | [] => return label
  | q :: rest => do
    collapseAll suffix (Schema.personLabel.fields.merge label (← q.collapse suffix)) rest

end QuantumLabel

namespace Population

/-- The id that the leaf assigns to a fingerprint. -/
def personId (p : Population) (actingFingerprint : UInt64) : Option Int64 :=
  p.ids.map fun ids =>
    .ofInt (ids.personId (fingerprint (p.seed ++ (Value.uint64 actingFingerprint).text)))

/-- The label of the person that an event is assigned. -/
def label (e : Event) (id : Option Int64) : Except Error (Option PersonLabel) := do
  let suffix :=
    match id with
    | some id => (Value.int64 id).text
    | none => (Value.uint64 e.fingerprint).text
  let collapsed ←
    match e.quantumLabels with
    | none => pure none
    | some labels => some <$> QuantumLabel.collapseAll suffix Schema.personLabel.fields.empty labels
  match e.label with
  | none => return collapsed
  | some own =>
    return some (Schema.personLabel.fields.merge
      (collapsed.getD Schema.personLabel.fields.empty) own)

/-- The activity of the person that is assigned to an event, which must not have any yet. -/
def assigned (p : Population) (e : Event) : Except Error Activity := do
  if e.activities.isEmpty then
    let id := p.personId e.fingerprint
    return .ofPerson id (← label e id)
  else invalidEvent .activitiesPresent

/-- Adds the activity of the assigned person. -/
def apply (p : Population) (e : Event) : Except Error Event := do
  return e.withActivities (e.activities ++ [← p.assigned e])

end Population

end VirtualPeople
