import CodeLayout.Style.Query
import CodeLayout.Text.Lines
import CodeLayout.Text.Slice

/-!
# Texts of several lines

The lines of a block comment follow its first line: those that start with a star put it one column
to the right of the slash.  The lines of a text that is copied as it is move with its first line.
-/

namespace CodeLayout.Render

/-- The text with every line but the first replaced. -/
def mapTail (f : List Char → List Char) (text : String) : String :=
  match Text.splitLines text.toList with
  | [] => text
  | line :: lines => String.ofList (Text.joinLines (line :: lines.map f))

/-- A line of a comment that starts with a star gets the indent; any other line stays. -/
def starLine (indent line : List Char) : List Char :=
  match line.dropWhile Text.isTabOrSpace with
  | '*' :: rest => indent ++ '*' :: rest
  | _ => line

/-- A block comment that starts at the column, with its stars below each other. -/
def reindent (style : Style) (column : Nat) (text : String) : String :=
  mapTail (starLine (style.indentString (column + 1)).toList) text

/-- A line moved by a number of columns; a line of blanks stays. -/
def shiftLine (style : Style) (delta : Int) (line : List Char) : List Char :=
  let indent := line.takeWhile Text.isTabOrSpace
  let rest := line.dropWhile Text.isTabOrSpace
  if rest.isEmpty then line
  else
    let width : Int := style.visualWidth (String.ofList indent) 0
    (style.indentString (width + delta).toNat).toList ++ rest

/-- A text whose lines after the first move by a number of columns. -/
def shiftLines (style : Style) (delta : Int) (text : String) : String :=
  if delta == 0 then text else mapTail (shiftLine style delta) text

end CodeLayout.Render
