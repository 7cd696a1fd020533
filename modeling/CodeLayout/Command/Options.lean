import CodeLayout.Text.Blank
import CodeLayout.Text.Number
import CodeLayout.Text.Span

/-!
# Options of the command line

A command line holds at most one file, and options that are written `--name value` or
`--name=value`, or `--name` alone.  Each option is given once at most.  A value after its name may
not look like an option, and after `--` everything is a file.
-/

namespace CodeLayout.Command

/-- What a command line asks for. -/
structure Options where
  /-- The file to format; none for standard input. -/
  file : Option String := none
  /-- A style file over the built-in style. -/
  styleFile : Option String := none
  margin : Option Nat := none
  indentSize : Option Nat := none
  /-- The stretch to format. -/
  range : Option Span := none
  /-- Answer only whether the file is formatted. -/
  check : Bool := false
  /-- List the edits. -/
  edits : Bool := false
  /-- Answer the indent of a new line at the offset. -/
  predict : Option Nat := none
deriving DecidableEq, Repr

/-- Two numbers with a colon between them; blanks around them do not count. -/
def range? (text : String) : Option Span := do
  let cs := text.toList
  let start := cs.takeWhile (· != ':')
  match cs.drop start.length with
  | _ :: stop =>
    let bound? (text : List Char) : Option Nat := Text.number? (Text.trim (String.ofList text))
    return ⟨← bound? start, ← bound? stop⟩
  | [] => none

/-- A name that is not empty. -/
def path? (text : String) : Option String := if text.isEmpty then none else some text

namespace Options

/-- Set an option that has a value; none if there is no such option, if it is set already or if the
value does not fit. -/
def set? (o : Options) (name value : String) : Option Options :=
  match name with
  | "config" =>
    if o.styleFile.isSome then none
    else (path? value).map fun v => { o with styleFile := some v }
  | "margin" =>
    if o.margin.isSome then none else (Text.number? value).map fun v => { o with margin := some v }
  | "indent-size" =>
    if o.indentSize.isSome then none
    else (Text.number? value).map fun v => { o with indentSize := some v }
  | "range" =>
    if o.range.isSome then none else (range? value).map fun v => { o with range := some v }
  | "predict" =>
    if o.predict.isSome then none
    else (Text.number? value).map fun v => { o with predict := some v }
  | _ => none

/-- Set an option without a value; none if there is no such option or if it is set already. -/
def flag? (o : Options) (name : String) : Option Options :=
  match name with
  | "check" => if o.check then none else some { o with check := true }
  | "edits" => if o.edits then none else some { o with edits := true }
  | _ => none

/-- Set the file, if there is none yet. -/
def setFile? (o : Options) (file : String) : Option Options :=
  if o.file.isSome then none else (path? file).map fun v => { o with file := some v }

end Options

/-- An argument as it is written. -/
inductive Argument where
  /-- Nothing but files follow. -/
  | onlyFiles
  /-- An option, maybe with its value. -/
  | option (name : String) (value : Option String)
  /-- A single dash and more, which no option is written with. -/
  | dashed
  | plain
deriving DecidableEq, Repr

/-- Tell the forms of arguments apart. -/
def Argument.of (text : String) : Argument :=
  match text.toList with
  | ['-', '-'] => .onlyFiles
  | '-' :: '-' :: cs =>
    let name := cs.takeWhile (· != '=')
    match cs.drop name.length with
    | _ :: value => .option (String.ofList name) (some (String.ofList value))
    | [] => .option (String.ofList name) none
  | '-' :: _ :: _ => .dashed
  | _ => .plain

/-- Read arguments. -/
def readArguments (o : Options) : List String → Option Options
  | [] => some o
  | a :: rest =>
    match Argument.of a with
    | .onlyFiles => rest.foldlM Options.setFile? o
    | .dashed => none
    | .plain => do readArguments (← o.setFile? a) rest
    | .option name (some value) => do readArguments (← o.set? name value) rest
    | .option name none =>
      if name == "check" || name == "edits" then do readArguments (← o.flag? name) rest
      else
        match rest with
        | value :: rest =>
          if Argument.of value == .plain then do readArguments (← o.set? name value) rest
          else none
        | [] => none

/-- The options that arguments ask for; none if they make no sense. -/
def options? (arguments : List String) : Option Options := readArguments {} arguments

end CodeLayout.Command
