import CodeLayout.Text.Slice
import CodeLayout.Token.Kind

/-!
# Tokens

A token is a kind together with the stretch of the source that it covers.  Its text is read back
from the source.
-/

namespace CodeLayout

/-- A token of a source. -/
structure Token where
  /-- What the token is. -/
  kind : TokenKind
  /-- The offset of its first byte. -/
  start : Nat
  /-- The number of bytes that it covers. -/
  length : Nat
deriving DecidableEq, Repr, Inhabited

namespace Token

/-- The offset right after the token. -/
def stop (t : Token) : Nat := t.start + t.length

/-- The text of the token in the source that it was read from. -/
def text (t : Token) (source : String) : String := Text.slice source t.start t.stop

/-- Tokens that the grammar does not see. -/
def isTrivia (t : Token) : Bool := t.kind.isTrivia

end Token

end CodeLayout
