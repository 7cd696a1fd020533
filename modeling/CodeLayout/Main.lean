import CodeLayout.Command.Run

/-!
# The command

Reads what a command line names, runs it, and prints what the run ends with.
-/

namespace CodeLayout.Command

/-- The text of a file, if it can be read. -/
def readFile? (name : String) : IO (Option String) := do
  try
    return some (← IO.FS.readFile name)
  catch _ => return none

/-- The files among the names that can be read. -/
def readFiles (names : List String) : IO (List (String × String)) :=
  names.filterMapM fun name => do
    return (← readFile? name).map (name, ·)

/-- The rest of a stream. -/
partial def readRest (stream : IO.FS.Stream) (text : String) : IO String := do
  let line ← stream.getLine
  if line.isEmpty then return text else readRest stream (text ++ line)

/-- The style files that a command line may name. -/
def styleFiles (arguments : List String) : List String :=
  match (options? arguments).bind Options.styleFile with
  | some name => [name, name ++ ".toml"]
  | none => []

/-- Run a command line on the files and the standard input of the system. -/
def runHere (arguments : List String) : IO Outcome := do
  let files ← readFiles (styleFiles arguments)
  match prepare arguments (fun name => files.lookup name) with
  | .error outcome => return outcome
  | .ok (o, style) =>
    match o.file with
    | none => return runOnStdin o style (← readRest (← IO.getStdin) "")
    | some file => return runOnFile o style (← readFile? file)

end CodeLayout.Command

/-- Run the command line and answer its status. -/
def main (arguments : List String) : IO UInt32 := do
  let outcome ← CodeLayout.Command.runHere arguments
  (outcome.notes ++ outcome.complaints).forM fun line => IO.eprintln line
  IO.print outcome.output
  return outcome.status.toUInt32
