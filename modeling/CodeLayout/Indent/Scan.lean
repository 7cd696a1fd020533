import CodeLayout.Token.Kind

/-!
# Looking back over tokens

The indent of a new line depends on where the expression or statement before it starts.  A scan goes
back over the kinds of the tokens, the nearest first, skips pairs of parentheses and brackets, and
stops at an unclosed opening sign, at the end of another statement, or at the head of a control
statement.  A token is told by its position, which is the number of tokens before it.

A scan that needs tokens in front of the first one says so.
-/

namespace CodeLayout.Indent

/-- A look at the tokens; the state tells whether one in front of the first was needed. -/
abbrev Look := StateM Bool

/-- A token in front of the first one is needed. -/
def ranOff : Look Unit := set true

/-- Where a scan stops. -/
inductive Stop where
  /-- The end of another statement, or a tag. -/
  | delimiter (position : Nat)
  /-- An opening sign that is not closed. -/
  | opener (position : Nat)
  | comma (position : Nat)
  /-- The head of a control statement: its last token and its keyword. -/
  | header (last keyword : Nat)
  /-- The first token. -/
  | start
deriving DecidableEq, Repr

/-- The position of the token after a stop. -/
def Stop.next : Stop → Nat
  | delimiter i | opener i | comma i => i + 1
  | header last _ => last + 1
  | start => 0

/-- Tokens between two statements. -/
def isScopeDelimiter : TokenKind → Bool
  | .semiColon | .blockBegin | .blockEnd | .openTag | .openTagWithEcho | .closeTag => true
  | _ => false

/-- Keywords before a condition in parentheses and a body. -/
def isControlHeader : TokenKind → Bool
  | .ifKw | .elseIfKw | .whileKw | .forKw | .foreachKw => true
  | _ => false

/-- Does the colon before which the tokens stand end the label of a case? -/
def endsCaseLabel (depth : Nat) : List TokenKind → Look Bool
  | [] => do
    ranOff
    return false
  | k :: rest =>
    match k, depth with
    | .parenEnd, _ | .arrayEnd, _ => endsCaseLabel (depth + 1) rest
    | .parenBegin, 0 | .arrayBegin, 0 => return false
    | .parenBegin, n + 1 | .arrayBegin, n + 1 => endsCaseLabel n rest
    | _, _ + 1 => endsCaseLabel depth rest
    | .caseKw, 0 | .defaultKw, 0 => return true
    | .question, 0 | .colon, 0 => return false
    | k, 0 => if isScopeDelimiter k then return false else endsCaseLabel 0 rest

/-- How deep a scan is inside pairs that it entered from their end. -/
structure Depth where
  parens : Nat := 0
  brackets : Nat := 0
  /-- The closing sign of the outermost pair of parentheses. -/
  outerClose : Nat := 0

/-- Is the scan inside a pair? -/
def Depth.isNested (d : Depth) : Bool := d.parens > 0 || d.brackets > 0

/-- Scan back over the tokens to the start of the expression or statement around. -/
def scanBack (stopAtComma : Bool) (d : Depth) : List TokenKind → Look Stop
  | [] => do
    ranOff
    return .start
  | k :: rest => do
    let here := rest.length
    let next (d : Depth) : Look Stop := scanBack stopAtComma d rest
    match k with
    | .parenEnd =>
      next { d with
        parens := d.parens + 1
        outerClose := if d.isNested then d.outerClose else here }
    | .arrayEnd => next { d with brackets := d.brackets + 1 }
    | .parenBegin =>
      if d.parens == 0 then return .opener here
      let d := { d with parens := d.parens - 1 }
      if !d.isNested && rest.head?.any isControlHeader then
        return .header d.outerClose (here - 1)
      next d
    | .arrayBegin | .attributeStart =>
      if d.brackets == 0 then return .opener here
      next { d with brackets := d.brackets - 1 }
    | k =>
      if d.isNested then next d
      else if k == .comma && stopAtComma then return .comma here
      else if isScopeDelimiter k then return .delimiter here
      else if k == .elseKw || k == .doKw then return .header here here
      else if k == .colon then
        if ← endsCaseLabel 0 rest then return .delimiter here
        next d
      else next d

/-- The position of the opening parenthesis of the pair that closes after the tokens. -/
def openingParen? (depth : Nat) : List TokenKind → Look (Option Nat)
  | [] => do
    ranOff
    return none
  | k :: rest =>
    match k, depth with
    | .parenEnd, _ => openingParen? (depth + 1) rest
    | .parenBegin, 0 => return some rest.length
    | .parenBegin, n + 1 => openingParen? n rest
    | _, _ => openingParen? depth rest

end CodeLayout.Indent
