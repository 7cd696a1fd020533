import CodeLayout.Token.Basic

/-!
# Significant tokens

The grammar sees a token sequence without its trivia.  A position counts significant tokens; the
position after the last one stands for the end of the file.  The trivia in front of a significant
token, or of the end, belongs to its position.
-/

namespace CodeLayout

/-- The significant tokens of a sequence by their indices, and the indices of the trivia in front of
each position. -/
structure Significant where
  /-- The index of the token at each position. -/
  indices : Array Nat := #[]
  /-- For each position in turn, up to the end, the trivia in front of it. -/
  leading : Array (List Nat) := #[]
deriving Inhabited, Repr

namespace Significant

/-- Sort the tokens from the given index on into significant ones and trivia. -/
def collect (index : Nat) (pending : List Nat) (acc : Significant) : List Token → Significant
  | [] => { acc with leading := acc.leading.push pending.reverse }
  | t :: ts =>
    if t.isTrivia then collect (index + 1) (index :: pending) acc ts
    else if t.kind == .eof then collect (index + 1) pending acc ts
    else
      collect (index + 1) []
        ⟨acc.indices.push index, acc.leading.push pending.reverse⟩ ts

/-- The significant tokens of a sequence. -/
def ofTokens (tokens : Array Token) : Significant := collect 0 [] {} tokens.toList

/-- The trivia in front of a position. -/
def trivia (s : Significant) (position : Nat) : List Nat := s.leading.getD position []

/-- Is there a close tag right in front of the position?  It ends a statement as a semicolon
does. -/
def closedBefore (s : Significant) (tokens : Array Token) (position : Nat) : Bool :=
  (s.trivia position).any fun i => (tokens.getD i default).kind == .closeTag

end Significant

end CodeLayout
