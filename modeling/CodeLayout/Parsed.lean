import CodeLayout.Grammar.Program
import CodeLayout.Text.Span
import CodeLayout.Token.Lexer
import CodeLayout.Token.Significant

/-!
# Parsed sources

A source is read into tokens, the grammar parses the symbols of the significant ones, and the
positions in its answer are replaced by the tokens that they stand for.  Problems of the grammar do
not stop this: what they concern lies inside error nodes.
-/

namespace CodeLayout

/-- A syntax problem at a token of a source. -/
structure SyntaxError where
  /-- The index of the token; the last one stands for the end. -/
  token : Nat
  /-- The stretch to blame. -/
  span : Span
  cause : Grammar.Cause
deriving DecidableEq, Repr

/-- The wording of a problem. -/
def SyntaxError.message (e : SyntaxError) : String := e.cause.message

/-- The tokens of a source, the tree over the significant ones, and the problems. -/
structure Parsed where
  tokens : Array Token
  tree : Tree
  errors : List SyntaxError
deriving Repr

namespace Parsed

/-- What the grammar sees of a token sequence. -/
def symbols (tokens : Array Token) (significant : Significant) : Grammar.Input where
  symbols := (Array.range significant.indices.size).map fun position =>
    ⟨(tokens.getD (significant.indices.getD position 0) default).kind,
      significant.closedBefore tokens position⟩
  endClosed := significant.closedBefore tokens significant.indices.size

/-- The token at a position; past the last one, the token at the end. -/
def tokenAt (tokens : Array Token) (significant : Significant) (position : Nat) : Nat :=
  significant.indices.getD position (tokens.size - 1)

/-- A problem at the token of its position.  The blamed stretch is not empty. -/
def locate (tokens : Array Token) (significant : Significant) (p : Grammar.Problem) :
    SyntaxError :=
  let index := tokenAt tokens significant p.position
  let t := tokens.getD index default
  ⟨index, ⟨t.start, max t.stop (t.start + 1)⟩, p.cause⟩

/-- Parse a token sequence. -/
def ofTokens (tokens : Array Token) : Parsed :=
  let significant := Significant.ofTokens tokens
  let outcome := Grammar.parse (symbols tokens significant)
  { tokens
    tree := outcome.tree.relabel fun position =>
      let index := tokenAt tokens significant position
      (index, (tokens.getD index default).length)
    errors := (outcome.problems.map (locate tokens significant)).toList }

/-- Read and parse a source. -/
def ofSource (source : String) : Except LexError Parsed := do
  return ofTokens (← tokenize source)

/-- The stretch that a tree covers, trivia between its tokens included. -/
def span? (p : Parsed) (t : Tree) : Option Span := do
  let first ← t.first?
  let last ← t.last?
  return ⟨(p.tokens.getD first default).start, (p.tokens.getD last default).stop⟩

/-- The text that a tree covers. -/
def text (p : Parsed) (source : String) (t : Tree) : String :=
  match p.span? t with
  | some s => Text.slice source s.start s.stop
  | none => ""

end Parsed

end CodeLayout
