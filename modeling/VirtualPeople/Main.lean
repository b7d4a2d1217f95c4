import VirtualPeople.Command

/-!
# The command line

Runs a command on the system itself.
-/

/-- The variables that override settings. -/
def variableNames : List String :=
  ["DEBUG_TRACE", "PARALLEL", "THREADS", "LOG_LEVEL", "LOG_FORMAT"].map ("VID_LABELER_" ++ ·)

/-- Adds a text to a file, or to the standard output. -/
def appendText (place : Option String) (text : String) : IO Unit :=
  match place with
  | some path => do (← IO.FS.Handle.mk path .append).putStr text
  | none => IO.print text

open VirtualPeople in
def system : Host (EIO Complaint) where
  loadSettings := Settings.load
  environment := do
    let values ← variableNames.mapM fun name => return (name, ← IO.getEnv name)
    return fun name => (values.lookup name).join
  readFile path := (IO.FS.readFile path).toEIO fun _ => .error .file
  startThreads _ := return
  pool _ := .tasks
  create path := (IO.FS.writeFile path "").toEIO fun _ => .notCreated path
  write place text := (appendText place text).toEIO fun _ => .notWritten

def usage : List String :=
  ["usage: vid-labeler label --model FILE --input FILE [--output FILE] [--config FILE]",
    "                         [--debug-trace] [--parallel]",
    "       vid-labeler flatten --model FILE --output FILE",
    "       vid-labeler hash --model FILE"]

def main (args : List String) : IO UInt32 := do
  match VirtualPeople.Command.parse? args with
  | none =>
    usage.forM IO.eprintln
    return 2
  | some command =>
    match ← (command.run system).toIO' with
    | .ok () => return 0
    | .error complaint =>
      IO.eprintln complaint.message
      return 1
