import VirtualPeople.Model.Build

/-!
# Labeling

An input becomes an event with nothing else set. Its identifiers are fingerprinted, whatever
fingerprints came with them, and the fingerprint of its event id drives the model; then the event
goes down the tree, and the people that it is assigned are the answer.
-/

namespace VirtualPeople

/-- The people of one input, and the event after labeling, if it is to be shown. -/
structure LabelerOutput where
  people : List Activity
  trace : String

namespace LabelerOutput

def decoder : Decoder LabelerOutput :=
  Decoder.record ["people", "serialized_debug_trace"] fun n values =>
    match values with
    | [people, trace] => do
      return ⟨← Decoder.orElse (Decoder.list Schema.activity.fields.decoder) [] n people,
        ← Decoder.orElse Decoder.string "" n trace⟩
    | _ => none

def toJson (o : LabelerOutput) : Json :=
  .object (("people", .array (o.people.map Schema.activity.fields.toJson)) ::
    (if o.trace = "" then [] else [("serialized_debug_trace", .string o.trace)]))

end LabelerOutput

/-- With the fingerprint of its id; an id that is unset counts as empty. -/
def EventId.stamped : EventId → EventId
  | (id, _, ()) => (id, some (fingerprint (id.getD "")), ())

/-- With the fingerprint of its user id, if that is set. -/
def UserInfo.stamped : UserInfo → UserInfo
  | (none, print, demo, ()) => (none, print, demo, ())
  | (some id, _, demo, ()) => (some id, some (fingerprint id), demo, ())

/-- With every user in it stamped. -/
def ProfileInfo.stamped : ProfileInfo → ProfileInfo
  | (email, phone, loggedIn, loggedOut, p1, p2, p3, p4, p5, p6, p7, p8, p9, p10, ()) =>
    let stamp (user : Option UserInfo) : Option UserInfo := user.map UserInfo.stamped
    (stamp email, stamp phone, stamp loggedIn, stamp loggedOut, stamp p1, stamp p2, stamp p3,
      stamp p4, stamp p5, stamp p6, stamp p7, stamp p8, stamp p9, stamp p10, ())

/-- With every identifier in it stamped. -/
def LabelerInput.stamped : LabelerInput → LabelerInput
  | (time, agent, id, geo, profile, ()) =>
    (time, agent, id.map EventId.stamped, geo, profile.map ProfileInfo.stamped, ())

/-- The fingerprint of the event id, if there is one. -/
def LabelerInput.fingerprint : LabelerInput → Option UInt64
  | (_, _, id, _) => id.bind fun (_, print, ()) => print

/-- The event that an input is labeled as. -/
def Event.ofInput (input : LabelerInput) : Event :=
  let input := LabelerInput.stamped input
  (LabelerInput.fingerprint input, none, none, none, none, some input, none, none, none, none, [],
    ())

/-- A pool of threads. It applies a function to every element of a list and collects the results. -/
structure ThreadPool where
  collect {α β : Type} (f : α → β) (xs : List α) : List β

/-- A task for every element, whose results are waited for in order. The runtime has threads of its
own, so no number of them is asked for. -/
def ThreadPool.tasks : ThreadPool where
  collect f xs := (xs.map fun x => Task.spawn fun _ => f x).map Task.get

/-- A built model that labels inputs. -/
structure Labeler where
  root : Node
  trace : Bool

namespace Labeler

/-- Labels one input. -/
def label (l : Labeler) (input : LabelerInput) : Except Error LabelerOutput :=
  match l.root.apply (Event.ofInput input) with
  | .ok () e => return ⟨e.activities, if l.trace then e.toJson.laidOutText else ""⟩
  | .error err _ => .error err

/-- Labels inputs in their order, each by itself. -/
def labelAll (l : Labeler) (inputs : List LabelerInput) : List (Except Error LabelerOutput) :=
  inputs.map l.label

/-- Labels inputs on the threads of a pool. -/
def labelAllIn (l : Labeler) (pool : ThreadPool) (inputs : List LabelerInput) :
    List (Except Error LabelerOutput) :=
  pool.collect l.label inputs

end Labeler

end VirtualPeople
