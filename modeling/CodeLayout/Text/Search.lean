/-!
# Finding a text in a text

Places are counted in characters.
-/

namespace CodeLayout.Text

/-- The first place from `n` on where the characters go on with the pattern. -/
def findFrom? (pattern : List Char) (n : Nat) : List Char → Option Nat
  | [] => none
  | c :: cs => if pattern.isPrefixOf (c :: cs) then some n else findFrom? pattern (n + 1) cs

/-- The first place where the characters go on with the pattern. -/
def find? (pattern : String) (cs : List Char) : Option Nat := findFrom? pattern.toList 0 cs

/-- The last place from `n` on where the characters go on with the pattern, or else the one found
before. -/
def findLastFrom? (pattern : List Char) (n : Nat) (found : Option Nat) : List Char → Option Nat
  | [] => found
  | c :: cs =>
    findLastFrom? pattern (n + 1) (if pattern.isPrefixOf (c :: cs) then some n else found) cs

/-- The last place where the characters go on with the pattern. -/
def findLast? (pattern : String) (cs : List Char) : Option Nat :=
  findLastFrom? pattern.toList 0 none cs

end CodeLayout.Text
