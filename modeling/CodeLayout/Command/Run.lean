import CodeLayout.Command.Options
import CodeLayout.Format
import CodeLayout.Indent.Predict
import CodeLayout.Style.Load
import CodeLayout.Text.Quoted

/-!
# Running a command line

What a command line does, apart from reading files and printing.  A wrong command line fails with
status 2; a file that cannot be read, a bad style, a syntax problem or an unformatted file under
`--check` with status 1.
-/

namespace CodeLayout.Command

/-- What a run ends with. -/
structure Outcome where
  status : Nat
  output : String := ""
  /-- Lines that tell the user what happens. -/
  notes : List String := []
  /-- Lines that tell why the run failed. -/
  complaints : List String := []
deriving DecidableEq, Repr

namespace Outcome

/-- A run that prints. -/
def success (output : String) : Outcome := { status := 0, output }

/-- A run that fails on its input. -/
def failure (complaints : List String) : Outcome := { status := 1, complaints }

/-- A wrong command line. -/
def misuse : Outcome := { status := 2, complaints := ["wrong command line"] }

end Outcome

/-- The note before standard input is read. -/
def stdinNote : String := "No file specified. Reading from stdin..."

/-- The texts of the style file that the options name, given how to read a file.  Its ending may be
left out. -/
def styleTexts (o : Options) (read : String → Option String) : Option (List String) :=
  match o.styleFile with
  | none => some []
  | some name => ((read name).or (read (name ++ ".toml"))).map ([·])

/-- The style that the options ask for, over the given style files. -/
def styleOf (o : Options) (texts : List String) : Except Style.StyleError Style := do
  let number (key : String) (n : Option Nat) : Except Style.StyleError (List Style.Override) :=
    match n with
    | some n => return [← Style.override key (.int (Text.signed n))]
    | none => return []
  let margin ← number "indent.margin" o.margin
  let size ← number "indent.indent_size" o.indentSize
  Style.load texts (margin ++ size)

/-- What an error says, with the stretches to blame. -/
def complaints (e : LayoutError) : List String :=
  e.labels.map fun l => toString l.1.start ++ ".." ++ toString l.1.stop ++ ": " ++ l.2

/-- An edit on one line. -/
def editLine (e : Edit) : String :=
  toString e.offset ++ ":" ++ toString e.length ++ ":" ++ Text.quoted e.text

/-- List, count or apply the edits of a source. -/
def finish (o : Options) (source : String) (edits : List Edit) : Outcome :=
  if o.edits then .success (String.intercalate "\n" (edits.map editLine) ++ "\n")
  else if o.check then
    if edits.isEmpty then .success ""
    else
      { status := 1
        notes := [o.file.getD "" ++ ": " ++ toString edits.length ++ " formatting changes"] }
  else
    match Edit.apply source edits with
    | .ok text => .success text
    | .error e => .failure (complaints e)

/-- Do what the options ask for with a source. -/
def runOn (o : Options) (style : Style) (source : String) : Outcome :=
  match o.predict with
  | some caret => .success (toString (Indent.predictIndent source caret style) ++ "\n")
  | none =>
    let edits : Except LayoutError (List Edit) := do
      checkSyntax source
      formatEdits source style o.range none
    match edits with
    | .ok edits => finish o source edits
    | .error e => .failure (complaints e)

/-- The options and the style of a command line, given how to read a file. -/
def prepare (arguments : List String) (read : String → Option String) :
    Except Outcome (Options × Style) :=
  match options? arguments with
  | none => .error .misuse
  | some o =>
    match styleTexts o read with
    | none => .error (.failure ["cannot read the style file"])
    | some texts =>
      match styleOf o texts with
      | .error e => .error (.failure [e.label])
      | .ok style => .ok (o, style)

/-- Do what the options ask for with the text of standard input. -/
def runOnStdin (o : Options) (style : Style) (stdin : String) : Outcome :=
  let outcome := runOn o style stdin
  { outcome with notes := stdinNote :: outcome.notes }

/-- Do what the options ask for with a file, if it could be read. -/
def runOnFile (o : Options) (style : Style) (source : Option String) : Outcome :=
  match source with
  | some source => runOn o style source
  | none => .failure ["cannot read the file"]

/-- Run a command line, given how to read a file and the text of standard input. -/
def run (arguments : List String) (read : String → Option String) (stdin : String) : Outcome :=
  match prepare arguments read with
  | .error outcome => outcome
  | .ok (o, style) =>
    match o.file with
    | none => runOnStdin o style stdin
    | some file => runOnFile o style (read file)

end CodeLayout.Command
