/-!
# Text by byte offsets

Offsets and lengths count the bytes of a text's UTF-8 form.  An offset is a boundary of a text if it
lies within the text and between two of its characters; only a stretch between two boundaries is a
slice of the text, and any other stretch reads as empty.
-/

namespace CodeLayout.Text

/-- The number of bytes of a text. -/
abbrev size (s : String) : Nat := s.utf8ByteSize

/-- The number of bytes of a list of characters. -/
def sizeOfChars : List Char → Nat
  | [] => 0
  | c :: cs => c.utf8Size + sizeOfChars cs

/-- Is the offset within the text and not inside one of its characters? -/
def isBoundary (s : String) (offset : Nat) : Bool := String.Pos.Raw.isValid s ⟨offset⟩

/-- The slice from one offset to another, if both are boundaries in this order. -/
def slice? (s : String) (start stop : Nat) : Option String :=
  if start ≤ stop && isBoundary s start && isBoundary s stop then
    some (String.Pos.Raw.extract s ⟨start⟩ ⟨stop⟩)
  else none

/-- The slice from one offset to another, empty where there is none. -/
def slice (s : String) (start stop : Nat) : String := (slice? s start stop).getD ""

/-- The text before an offset. -/
def before (s : String) (offset : Nat) : String := slice s 0 offset

/-- The text from an offset on. -/
def after (s : String) (offset : Nat) : String := slice s offset (size s)

/-- The largest boundary that is not past the offset. -/
def floorBoundary (s : String) : Nat → Nat
  | 0 => 0
  | offset + 1 => if isBoundary s (offset + 1) then offset + 1 else floorBoundary s offset

/-- Does the text hold the character? -/
def holds (s : String) (c : Char) : Bool := s.toList.contains c

/-- How often the character occurs in the text. -/
def occurrences (s : String) (c : Char) : Nat := s.toList.count c

/-- A line feed, as the end of a line. -/
def hasNewline (s : String) : Bool := holds s '\n'

end CodeLayout.Text
