/-!
# Lines

A line feed ends a line.  A text with `n` line feeds has `n + 1` lines, the last of which may be
empty.
-/

namespace CodeLayout.Text

/-- The lines of a list of characters. -/
def splitLines : List Char → List (List Char)
  | [] => [[]]
  | c :: cs =>
    if c == '\n' then [] :: splitLines cs
    else
      match splitLines cs with
      | [] => [[c]]
      | line :: lines => (c :: line) :: lines

/-- The characters of lines with line feeds between them. -/
def joinLines : List (List Char) → List Char
  | [] => []
  | [line] => line
  | line :: lines => line ++ '\n' :: joinLines lines

/-- The characters before the first line feed. -/
def firstLine (cs : List Char) : List Char := cs.takeWhile (· != '\n')

/-- The characters after the last line feed. -/
def lastLine (cs : List Char) : List Char := (cs.reverse.takeWhile (· != '\n')).reverse

end CodeLayout.Text
