import VirtualPeople.CommandOption
import VirtualPeople.Labeler
import VirtualPeople.Model.Codec
import VirtualPeople.Model.Flatten
import VirtualPeople.Settings.Basic

/-!
# Commands

The commands of the labeler, on whatever system offers them files and threads (`Host`). One such
system is a machine whose files are known (`Machine`): there it can be told what a command leaves
behind when a step of it fails.
-/

namespace VirtualPeople

structure LabelOptions where
  model : String
  input : String
  output : Option String
  config : Option String
  trace : Bool
  parallel : Bool
deriving DecidableEq, Repr

inductive Command
  | label (options : LabelOptions)
  | flatten (model output : String)
  | hash (model : String)
deriving DecidableEq, Repr

/-- Why a command failed. -/
inductive Complaint
  | error (err : Error)
  | noThreads (count : UInt64)
  | notCreated (path : String)
  | notWritten
  | unlabeled (failed total : Nat)

def Complaint.message : Complaint → String
  | error err => err.message
  | noThreads count => s!"no pool of {count.toNat} threads could be built"
  | notCreated path => s!"{path} could not be created"
  | notWritten => "the output could not be written"
  | unlabeled failed total => s!"{failed} of {total} inputs failed to label"

/-- What a command needs of the system it runs on: settings are read from a text, the environment
and files are looked at, and an output, the standard output if it has no path, is created and then
written. -/
structure Host (m : Type → Type) where
  loadSettings : String → Except Error Settings
  environment : m (String → Option String)
  readFile : String → m String
  startThreads : UInt64 → m Unit
  pool : UInt64 → ThreadPool
  create : String → m Unit
  write : Option String → String → m Unit

namespace Command

def modelOption : CommandOption := ⟨"model", some 'm', true⟩

def inputOption : CommandOption := ⟨"input", some 'i', true⟩

def outputOption : CommandOption := ⟨"output", some 'o', true⟩

def configOption : CommandOption := ⟨"config", some 'c', true⟩

def traceOption : CommandOption := ⟨"debug-trace", none, false⟩

def parallelOption : CommandOption := ⟨"parallel", none, false⟩

/-- The command of arguments. -/
def parse? : List String → Option Command
  | "label" :: args => do
    let given ← CommandOption.read?
      [modelOption, inputOption, outputOption, configOption, traceOption, parallelOption] args
    return .label {
      model := ← given.lookup "model"
      input := ← given.lookup "input"
      output := given.lookup "output"
      config := given.lookup "config"
      trace := (given.lookup "debug-trace").isSome
      parallel := (given.lookup "parallel").isSome }
  | "flatten" :: args => do
    let given ← CommandOption.read? [modelOption, outputOption] args
    return .flatten (← given.lookup "model") (← given.lookup "output")
  | "hash" :: args => do
    let given ← CommandOption.read? [modelOption] args
    return .hash (← given.lookup "model")
  | _ => none

/-- The lines of a text that are not blank. -/
def filledLines (s : String) : List String :=
  (Text.split '\n' s).filter fun line => Text.trim line.toList ≠ []

def readInput? (line : String) : Option LabelerInput :=
  Decoder.readText Schema.labelerInput.fields.decoder line

/-- The inputs of a text, one on each line that is not blank. -/
def inputsOf (s : String) : Except Error (List LabelerInput) :=
  match (filledLines s).mapM readInput? with
  | some inputs => .ok inputs
  | none => .error .json

def answerJson : Except Error LabelerOutput → Json
  | .ok output => output.toJson
  | .error err => .object [("error", .string err.message)]

/-- Answers, each on a line of its own. -/
def answersText (answers : List (Except Error LabelerOutput)) : String :=
  String.join (answers.map fun answer => (answerJson answer).text ++ "\n")

/-- How many answers are errors. -/
def failed (answers : List (Except Error LabelerOutput)) : Nat :=
  answers.countP fun answer => !answer.isOk

section

variable {m : Type → Type} [Monad m] [MonadExceptOf Complaint m] (host : Host m)

/-- Goes on with a result, or complains of the error. -/
def checked {α : Type} : Except Error α → m α
  | .ok a => pure a
  | .error err => throw (.error err)

def readModel (path : String) : m ModelSpec := do checked (ModelSpec.read (← host.readFile path))

/-- The settings of a run: the file's, overridden by the environment and then by the arguments. -/
def settingsOf (o : LabelOptions) : m Settings := do
  let s ←
    match o.config with
    | none => pure Settings.default
    | some path => checked (host.loadSettings (← host.readFile path))
  let s := s.override (← host.environment)
  return { s with trace := s.trace || o.trace, parallel := s.parallel || o.parallel }

/-- The settings, the labeler and the inputs of a run. -/
def prepare (o : LabelOptions) : m (Settings × Labeler × List LabelerInput) := do
  let settings ← settingsOf host o
  let model ← readModel host o.model
  let root ← checked (Node.ofModel model)
  let inputs ← checked (inputsOf (← host.readFile o.input))
  return (settings, ⟨root, settings.trace⟩, inputs)

/-- Labels inputs one after another, or in parallel on as many threads as the settings say. -/
def labelAs (settings : Settings) (labeler : Labeler) (inputs : List LabelerInput) :
    m (List (Except Error LabelerOutput)) :=
  if settings.parallel then do
    host.startThreads settings.threads
    return labeler.labelAllIn (host.pool settings.threads) inputs
  else return labeler.labelAll inputs

/-- Writes a text to a new file, or to the standard output. -/
def writeTo (place : Option String) (text : String) : m Unit := do
  match place with
  | some path => host.create path
  | none => pure ()
  host.write place text

/-- Labels the inputs of a file. The output is created when there is an answer to each of them; an
input that cannot be labeled is answered by its error, and makes the command fail in the end. -/
def runLabel (o : LabelOptions) : m Unit := do
  let (settings, labeler, inputs) ← prepare host o
  let answers ← labelAs host settings labeler inputs
  writeTo host o.output (answersText answers)
  if failed answers ≠ 0 then throw (.unlabeled (failed answers) answers.length)

/-- Writes the list form of the model of a file. -/
def runFlatten (model output : String) : m Unit := do
  match (← readModel host model).root with
  | none => throw (.error (.invalidModel .noRoot))
  | some root =>
    let nodes ← checked root.flatten
    writeTo host (some output) (ModelSpec.canonicalText ⟨none, nodes⟩)

def runHash (model : String) : m Unit := do
  writeTo host none ((← readModel host model).hash ++ "\n")

def run : Command → m Unit
  | .label o => runLabel host o
  | .flatten model output => runFlatten host model output
  | .hash model => runHash host model

end

end Command

/-- The files, by their paths, and what the standard output shows. -/
structure World where
  files : String → Option String
  shown : String

namespace World

def withFile (path text : String) (w : World) : World :=
  { w with files := fun other => if other = path then some text else w.files other }

/-- With a text added to a file, or to what is shown. -/
def extended (place : Option String) (text : String) (w : World) : World :=
  match place with
  | some path => w.withFile path ((w.files path).getD "" ++ text)
  | none => { w with shown := w.shown ++ text }

end World

/-- What is fixed while a command runs: the environment, which pools can be built and which files
created, and after how many characters of a text writing it fails, if it does. -/
structure Machine where
  loadSettings : String → Except Error Settings
  environment : String → Option String
  hasThreads : UInt64 → Bool
  pool : UInt64 → ThreadPool
  creates : String → Bool
  cut : Option String → String → Option Nat

/-- Commands on a machine change its world. -/
def Machine.host (c : Machine) : Host (EStateM Complaint World) where
  loadSettings := c.loadSettings
  environment := pure c.environment
  readFile path := fun w =>
    match w.files path with
    | some text => .ok text w
    | none => .error (.error .file) w
  startThreads n := fun w => if c.hasThreads n then .ok () w else .error (.noThreads n) w
  pool := c.pool
  create path := fun w =>
    if c.creates path then .ok () (w.withFile path "") else .error (.notCreated path) w
  write place text := fun w =>
    match c.cut place text with
    | none => .ok () (w.extended place text)
    | some n => .error .notWritten (w.extended place (String.ofList (text.toList.take n)))

end VirtualPeople
