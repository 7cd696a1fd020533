import CodeLayout.Token.Kind

/-!
# Syntax problems

A problem names what the grammar expected and what it found instead.  The wording is in
`Cause.message`.
-/

namespace CodeLayout.Grammar

/-- What the grammar expected. -/
inductive Expected where
  /-- A token of one of the kinds. -/
  | oneOf (kinds : List TokenKind)
  | statement | expression | declaration | classMember
deriving DecidableEq, Repr

/-- The wording of an expectation. -/
def Expected.message : Expected → String
  | oneOf kinds => " or ".intercalate (kinds.map TokenKind.describe)
  | statement => "statement"
  | expression => "expression"
  | declaration => "declaration"
  | classMember => "class member"

/-- Forms that are refused as such. -/
inductive Refusal where
  | unmatchedBrace | alternativeBody
deriving DecidableEq, Repr

/-- The wording of a refusal. -/
def Refusal.message : Refusal → String
  | unmatchedBrace => "unmatched `\x7d`"
  | alternativeBody => "alternative control syntax is not supported"

/-- The cause of a problem. -/
inductive Cause where
  /-- Another token than expected; none if there is no token left. -/
  | unexpected (expected : Expected) (found : Option TokenKind)
  /-- The end of the file where a token is expected. -/
  | atEnd (expected : Expected)
  | refused (form : Refusal)
deriving DecidableEq, Repr

/-- The wording of a cause. -/
def Cause.message : Cause → String
  | unexpected expected found =>
    "Expected " ++ expected.message ++ ", found " ++ (found.map TokenKind.describe).getD ""
  | atEnd expected => "Unexpected end of input, expected " ++ expected.message
  | refused form => "Invalid syntax: " ++ form.message

/-- The name of a cause. -/
def Cause.label : Cause → String
  | unexpected .. => "UnexpectedToken"
  | atEnd _ => "UnexpectedEof"
  | refused _ => "InvalidSyntax"

/-- A problem at a position among the significant tokens. -/
structure Problem where
  position : Nat
  cause : Cause
deriving DecidableEq, Repr

end CodeLayout.Grammar
