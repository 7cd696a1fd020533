/-!
# Blanks

Spaces and tabs, which indent, and the characters of the Unicode class `White_Space`.
-/

namespace CodeLayout.Text

/-- Is the character a space or a tab? -/
def isTabOrSpace (c : Char) : Bool := c == ' ' || c == '\t'

/-- A text of the same character all over. -/
def repeated (c : Char) (n : Nat) : String := String.ofList (List.replicate n c)

/-- Is the character white space? -/
def isWhiteSpace (c : Char) : Bool :=
  let n := c.toNat
  (9 ≤ n && n ≤ 13) || n == 0x20 || n == 0x85 || n == 0xA0 || n == 0x1680
    || (0x2000 ≤ n && n ≤ 0x200A) || n == 0x2028 || n == 0x2029 || n == 0x202F || n == 0x205F
    || n == 0x3000

/-- Does the text hold nothing but white space? -/
def isAllWhiteSpace (s : String) : Bool := s.toList.all isWhiteSpace

/-- The text without the white space at both ends. -/
def trim (s : String) : String :=
  String.ofList
    ((s.toList.dropWhile isWhiteSpace).reverse.dropWhile isWhiteSpace).reverse

end CodeLayout.Text
