import VirtualPeople.Record.Codec
import VirtualPeople.Record.Field
import VirtualPeople.Record.Schema

/-!
# Events

The message types of the labeler. An event carries the input it was made from, what is known of
the person behind it, and the virtual people assigned to it; its acting fingerprint drives every
choice that is left to chance.
-/

namespace VirtualPeople

namespace Schema

/-- A field that holds a message. -/
def nested (name : String) (m : MessageType) : String × FieldType :=
  (name, .message m.name m.fields)

/-- A field that lists messages. -/
def listed (name : String) (m : MessageType) : String × FieldType :=
  (name, .list (.message m.name m.fields))

def ageRange : MessageType :=
  ⟨"AgeRange", .ofList [("min_age", .scalar .int32), ("max_age", .scalar .int32)]⟩

def demoBucket : MessageType :=
  ⟨"DemoBucket", .ofList [("gender", .scalar .gender), nested "age" ageRange]⟩

def demoInfo : MessageType :=
  ⟨"DemoInfo", .ofList [("confidence", .scalar .double), nested "demo_bucket" demoBucket]⟩

def userInfo : MessageType :=
  ⟨"UserInfo", .ofList
    [("user_id", .scalar .string), ("user_id_fingerprint", .scalar .uint64),
      nested "demo" demoInfo]⟩

def profileInfo : MessageType :=
  ⟨"ProfileInfo", .ofList
    [nested "email_user_info" userInfo,
      nested "phone_user_info" userInfo,
      nested "logged_in_id_user_info" userInfo,
      nested "logged_out_id_user_info" userInfo,
      nested "proprietary_id_space_1_user_info" userInfo,
      nested "proprietary_id_space_2_user_info" userInfo,
      nested "proprietary_id_space_3_user_info" userInfo,
      nested "proprietary_id_space_4_user_info" userInfo,
      nested "proprietary_id_space_5_user_info" userInfo,
      nested "proprietary_id_space_6_user_info" userInfo,
      nested "proprietary_id_space_7_user_info" userInfo,
      nested "proprietary_id_space_8_user_info" userInfo,
      nested "proprietary_id_space_9_user_info" userInfo,
      nested "proprietary_id_space_10_user_info" userInfo]⟩

def eventId : MessageType :=
  ⟨"EventId", .ofList [("id", .scalar .string), ("id_fingerprint", .scalar .uint64)]⟩

def geoLocation : MessageType :=
  ⟨"GeoLocation", .ofList
    [("country_id", .scalar .int32), ("region_id", .scalar .int32), ("city_id", .scalar .int32)]⟩

def labelerInput : MessageType :=
  ⟨"LabelerInput", .ofList
    [("timestamp_usec", .scalar .int64), ("user_agent", .scalar .string),
      nested "event_id" eventId, nested "geo" geoLocation, nested "profile_info" profileInfo]⟩

def personLabel : MessageType :=
  ⟨"PersonLabelAttributes", .ofList [nested "demo" demoBucket]⟩

def quantumLabel : MessageType :=
  ⟨"QuantumLabel", .ofList
    [("seed", .scalar .string), listed "labels" personLabel,
      ("probabilities", .list (.scalar .double))]⟩

def quantumLabels : MessageType :=
  ⟨"QuantumLabels", .ofList [listed "quantum_labels" quantumLabel]⟩

def activity : MessageType :=
  ⟨"VirtualPersonActivity", .ofList
    [("virtual_person_id", .scalar .int64), nested "label" personLabel]⟩

def event : MessageType :=
  ⟨"LabelerEvent", .ofList
    [("acting_fingerprint", .scalar .uint64),
      ("person_country_code", .scalar .string),
      ("person_region_code", .scalar .string),
      ("multiplicity_person_index", .scalar .int32),
      ("expected_multiplicity", .scalar .double),
      nested "labeler_input" labelerInput,
      nested "corrected_demo" demoBucket,
      nested "acting_demo" demoBucket,
      nested "label" personLabel,
      nested "quantum_labels" quantumLabels,
      listed "virtual_person_activities" activity]⟩

/-- Every message type. -/
def all : List MessageType :=
  [ageRange, demoBucket, demoInfo, userInfo, profileInfo, eventId, geoLocation, labelerInput,
    personLabel, quantumLabel, quantumLabels, activity, event]

/-- The message type of a name. -/
def find? (name : String) : Option MessageType := all.find? (·.name == name)

end Schema

abbrev UserInfo := Schema.userInfo.fields.Record
abbrev ProfileInfo := Schema.profileInfo.fields.Record
abbrev EventId := Schema.eventId.fields.Record
abbrev LabelerInput := Schema.labelerInput.fields.Record
abbrev PersonLabel := Schema.personLabel.fields.Record
abbrev QuantumLabel := Schema.quantumLabel.fields.Record
abbrev QuantumLabels := Schema.quantumLabels.fields.Record
abbrev Activity := Schema.activity.fields.Record
abbrev Event := Schema.event.fields.Record

namespace QuantumLabel

def seed : QuantumLabel → Option String
  | (seed, _, _, ()) => seed

def labels : QuantumLabel → List PersonLabel
  | (_, labels, _, ()) => labels

def probabilities : QuantumLabel → List Float
  | (_, _, probabilities, ()) => probabilities

end QuantumLabel

namespace Activity

/-- The activity of a person. -/
def ofPerson (id : Option Int64) (label : Option PersonLabel) : Activity := (id, label, ())

def personId : Activity → Option Int64
  | (personId, _, ()) => personId

def label : Activity → Option PersonLabel
  | (_, label, ()) => label

end Activity

namespace Event

def empty : Event := Schema.event.fields.empty

/-- The second event merged into the first. -/
def merge (a b : Event) : Event := Schema.event.fields.merge a b

def toJson (e : Event) : Json := Schema.event.fields.toJson e

def decoder : Decoder Event := Schema.event.fields.decoder

def actingFingerprint : Event → Option UInt64
  | (fingerprint, _) => fingerprint

/-- The acting fingerprint, 0 when it is unset. -/
def fingerprint (e : Event) : UInt64 := (actingFingerprint e).getD 0

def label : Event → Option PersonLabel
  | (_, _, _, _, _, _, _, _, label, _) => label

def quantumLabels : Event → Option (List QuantumLabel)
  | (_, _, _, _, _, _, _, _, _, labels, _) => labels.map fun (labels, ()) => labels

def activities : Event → List Activity
  | (_, _, _, _, _, _, _, _, _, _, activities, ()) => activities

def withFingerprint (fingerprint : UInt64) : Event → Event
  | (_, rest) => (some fingerprint, rest)

def withActivities (activities : List Activity) : Event → Event
  | (a, b, c, d, e, f, g, h, i, j, _, ()) => (a, b, c, d, e, f, g, h, i, j, activities, ())

end Event

/-- Works on an event; a failure keeps the state it reached. -/
abbrev Labeling := EStateM Error Event Unit

namespace Labeling

/-- Changes an event, or leaves it as it is and fails. -/
def change (f : Event → Except Error Event) : Labeling := fun e =>
  match f e with
  | .ok e' => .ok () e'
  | .error err => .error err e

/-- An event that nothing matches stays as it is, or is refused. -/
def unmatched (passThrough : Bool) (fault : EventFault) : Labeling := fun e =>
  if passThrough then .ok () e else .error (.invalidEvent fault) e

end Labeling

end VirtualPeople
