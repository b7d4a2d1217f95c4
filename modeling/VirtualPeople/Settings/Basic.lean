import VirtualPeople.Error
import VirtualPeople.Json.Decoder
import VirtualPeople.Settings.Document

/-!
# Settings

How a run labels and logs. Settings come from a document, and variables of the environment
override them one by one; a variable that cannot be read is passed over.
-/

namespace VirtualPeople

inductive LogFormat
  | compact
  | pretty
deriving DecidableEq, Repr

namespace LogFormat

def name : LogFormat → String
  | compact => "compact"
  | pretty => "pretty"

def table : List (String × LogFormat) := [("compact", compact), ("pretty", pretty)]

/-- The format of a name in any case. -/
def parse (text : String) : Except Error LogFormat :=
  let lower := String.ofList (text.toList.map Char.toLower)
  match table.lookup lower with
  | some format => .ok format
  | none => .error (.logFormat lower)

end LogFormat

/-- The settings of a run. A thread count of 0 leaves it to the machine. -/
structure Settings where
  trace : Bool
  parallel : Bool
  threads : UInt64
  logLevel : String
  logFormat : LogFormat
deriving DecidableEq, Repr

namespace Settings

def default : Settings := ⟨false, false, 0, "info", .compact⟩

/-- Reads what concerns labeling. -/
def labelerDecoder : Decoder (Bool × Bool × UInt64) :=
  Decoder.record ["debug_trace", "parallel", "threads"] fun n values =>
    match values with
    | [trace, parallel, threads] => do
      return (← Decoder.orElse Decoder.bool false n trace,
        ← Decoder.orElse Decoder.bool false n parallel,
        ← Decoder.orElse Decoder.uint64 0 n threads)
    | _ => none

/-- Reads what concerns logging. -/
def loggingDecoder : Decoder (String × LogFormat) :=
  Decoder.record ["level", "format"] fun n values =>
    match values with
    | [level, format] => do
      return (← Decoder.orElse Decoder.string "info" n level,
        ← Decoder.orElse (Decoder.oneOf LogFormat.table) .compact n format)
    | _ => none

def decoder : Decoder Settings :=
  Decoder.record ["labeler", "logging"] fun n values =>
    match values with
    | [labeler, logging] => do
      let (trace, parallel, threads) ← Decoder.orElse labelerDecoder (false, false, 0) n labeler
      let (level, format) ← Decoder.orElse loggingDecoder ("info", .compact) n logging
      return ⟨trace, parallel, threads, level, format⟩
    | _ => none

def toJson (s : Settings) : Json :=
  .object
    [("labeler", .object [("debug_trace", .bool s.trace), ("parallel", .bool s.parallel),
        ("threads", .ofNat s.threads.toNat)]),
      ("logging", .object [("level", .string s.logLevel), ("format", .string s.logFormat.name)])]

/-- The entry of a key, or a default; an entry of another type is refused. -/
def entry {α : Type} (as : Setting → Option α) (default : α) (key : String)
    (entries : List (String × Setting)) : Option α :=
  match entries.lookup key with
  | none => some default
  | some v => as v

def asBool : Setting → Option Bool
  | .truth b => some b
  | _ => none

def asThreads : Setting → Option UInt64
  | .integer i => if 0 ≤ i then some (.ofNat i.toNat) else none
  | _ => none

def asText : Setting → Option String
  | .string s => some s
  | _ => none

def asFormat : Setting → Option LogFormat
  | .string s => LogFormat.table.lookup s
  | _ => none

/-- The entries of a table, none if it is missing; a key of its name is refused. -/
def table (d : Document) (name : String) : Option (List (String × Setting)) :=
  if d.top.any (·.1 == name) then none else some ((d.tables.lookup name).getD [])

def ofDocument? (d : Document) : Option Settings := do
  let labeler ← table d "labeler"
  let logging ← table d "logging"
  return {
    trace := ← entry asBool false "debug_trace" labeler
    parallel := ← entry asBool false "parallel" labeler
    threads := ← entry asThreads 0 "threads" labeler
    logLevel := ← entry asText "info" "level" logging
    logFormat := ← entry asFormat .compact "format" logging }

/-- The settings of the text of a document. -/
def load (text : String) : Except Error Settings :=
  match (Document.read? text).bind ofDocument? with
  | some s => .ok s
  | none => .error .settings

/-- The document of settings, whose integers are signed. -/
def toDocument? (s : Settings) : Option Document :=
  if s.threads.toNat < 1 <<< 63 then
    some ⟨[], [("labeler", [("debug_trace", .truth s.trace), ("parallel", .truth s.parallel),
        ("threads", .integer s.threads.toNat)]),
      ("logging", [("level", .string s.logLevel), ("format", .string s.logFormat.name)])]⟩
  else none

/-- Whether saving settings and loading them again gives the same settings. -/
def isKept (s : Settings) : Bool :=
  match s.toDocument? with
  | none => false
  | some d =>
    match load d.text with
    | .ok t => t = s
    | .error _ => false

/-- The value of a variable, blanks around it ignored, or what was set before. -/
def overridden {α : Type} (parse : List Char → Option α) (old : α) : Option String → α
  | none => old
  | some text => (parse (Text.trim text.toList)).getD old

def wordOf? (cs : List Char) : Option UInt64 :=
  (Text.integerIn? 0 18446744073709551615 cs).map fun i => .ofNat i.toNat

/-- Settings overridden by the variables that `lookup` finds. -/
def override (s : Settings) (lookup : String → Option String) : Settings :=
  let find (name : String) : Option String := lookup ("VID_LABELER_" ++ name)
  { trace := overridden Text.boolean? s.trace (find "DEBUG_TRACE")
    parallel := overridden Text.boolean? s.parallel (find "PARALLEL")
    threads := overridden wordOf? s.threads (find "THREADS")
    logLevel := (find "LOG_LEVEL").getD s.logLevel
    logFormat := overridden (fun cs => (LogFormat.parse (String.ofList cs)).toOption) s.logFormat
      (find "LOG_FORMAT") }

end Settings

end VirtualPeople
