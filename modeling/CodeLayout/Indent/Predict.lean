import CodeLayout.Edit.Basic
import CodeLayout.Indent.Scan
import CodeLayout.Render.Width
import CodeLayout.Text.Blank
import CodeLayout.Text.Search
import CodeLayout.Token.Lexer

/-!
# The indent of a new line

`predictIndent` answers the column at which a line starts that is typed at a caret.  The last token
before the caret selects a rule; some rules look back for the start of the expression or statement.
No syntax tree is built.

Only a window of lines before the caret is read.  It grows while a rule needs tokens in front of it,
and in the end all the text before the caret is read.
-/

namespace CodeLayout.Indent

/-- Tokens that matter to the indent. -/
def isCode (t : Token) : Bool :=
  !(t.kind == .whitespace || t.kind.isComment || t.kind == .inlineHtml || t.kind == .eof)

/-- Tokens that cannot end an expression. -/
def isDangling : TokenKind → Bool
  | .assign | .compoundAssign | .plus | .minus | .star | .slash | .percent | .pow | .dot
  | .ampersand | .pipe | .caret | .tilde | .shiftLeft | .shiftRight | .boolAnd | .boolOr
  | .andKw | .orKw | .xorKw | .not | .equal | .notEqual | .identical | .notIdentical | .less
  | .lessEqual | .greater | .greaterEqual | .spaceship | .coalesce | .question | .colon | .arrow
  | .nullsafeArrow | .doubleColon | .doubleArrow | .instanceOfKw | .newKw | .returnKw | .echoKw
  | .printKw | .throwKw | .yieldKw | .cloneKw | .includeKw | .atSign => true
  | _ => false

/-- The text before a caret, read into tokens. -/
structure View where
  source : String
  style : Style
  /-- All tokens before the caret that have been read. -/
  raw : Array Token
  /-- Those that matter to the indent. -/
  tokens : Array Token

namespace View

/-- The view on the tokens. -/
def of (source : String) (style : Style) (raw : Array Token) : View :=
  ⟨source, style, raw, raw.filter isCode⟩

/-- The indent of the line at an offset. -/
def lineIndent (v : View) (offset : Nat) : Nat := Render.lineIndentAt v.style v.source offset

/-- The indent of the line on which the token at a position starts. -/
def indentOf (v : View) (position : Nat) : Nat :=
  match v.tokens[position]? with
  | some t => v.lineIndent t.start
  | none => 0

/-- The kind of the token at a position. -/
def kind? (v : View) (position : Nat) : Option TokenKind := (v.tokens[position]?).map Token.kind

/-- The kind of the token that stands `n` tokens before a position. -/
def kindBefore? (v : View) (position n : Nat) : Option TokenKind :=
  if n ≤ position then v.kind? (position - n) else none

/-- The kinds of the tokens before a position, the nearest first. -/
def back (v : View) (position : Nat) : List TokenKind :=
  ((v.tokens.toList.take position).map Token.kind).reverse

/-- Scan back from a position. -/
def scan (v : View) (position : Nat) (stopAtComma : Bool) : Look Stop :=
  scanBack stopAtComma {} (v.back position)

/-- The indent of the line on which the expression before a position starts. -/
def expressionIndent (v : View) (position : Nat) : Look Nat :=
  return v.indentOf (← v.scan position true).next

/-- The last comment before the caret, if nothing but blanks follows it. -/
def lastComment? (v : View) : Option Token := do
  let t ← v.raw.toList.reverse.find? fun t => !(t.kind == .whitespace || t.kind == .eof)
  if t.kind.isComment then some t else none

/-- Does nothing but white space stand before the offset on its line? -/
def startsLine (v : View) (offset : Nat) : Bool :=
  (Text.lastLine (Text.before v.source offset).toList).all Text.isWhiteSpace

/-! ### Rules -/

/-- The keyword of the outermost control statement whose body without braces starts with the one at
the keyword; the first argument bounds the number of steps. -/
def outermostHeader (v : View) : Nat → Nat → Look Nat
  | 0, keyword => return keyword
  | n + 1, keyword => do
    match ← v.scan keyword false with
    | .header _ outer => v.outermostHeader n outer
    | _ => return keyword

/-- After a semicolon: in the head of a loop, at the end of a body without braces, or at the end of
a statement. -/
def afterSemicolon (v : View) (semi : Nat) : Look Nat := do
  match ← v.scan semi false with
  | .opener position => return v.indentOf position + v.style.indent.continuationSize
  | .header _ keyword => return v.indentOf (← v.outermostHeader (keyword + 1) keyword)
  | stop => return v.indentOf stop.next

/-- Is the list broken between its opening sign and its first element? -/
def isBrokenList (v : View) (opener comma : Nat) : Bool :=
  match v.tokens[opener]?, v.tokens[opener + 1]?, v.tokens[comma]? with
  | some o, some first, some c =>
    first.start < c.start && Text.hasNewline (Text.slice v.source o.start first.start)
  | _, _, _ => false

/-- Does the sign open an array? -/
def opensArray (v : View) (opener : Nat) : Bool :=
  v.kind? opener == some .arrayBegin ||
    (v.kindBefore? opener 1).any fun k => k == .arrayKw || k == .listKw

/-- After a comma: as the element before it in a broken list, else deeper than what opens the list.
-/
def afterComma (v : View) (comma : Nat) : Look Nat := do
  match ← v.scan comma false with
  | .opener position =>
    if v.isBrokenList position comma then v.expressionIndent comma
    else
      let size := if v.opensArray position then v.style.indent.arrayItemSize
        else v.style.indent.continuationSize
      return v.indentOf position + size
  | .delimiter position =>
    if v.kind? position == some .blockBegin then v.expressionIndent comma
    else return v.indentOf (position + 1) + v.style.indent.continuationSize
  | stop => return v.indentOf stop.next + v.style.indent.continuationSize

/-- After a closing parenthesis: in the body of a control statement, before the block of a header,
or in an unfinished expression. -/
def afterParen (v : View) (close : Nat) : Look Nat := do
  match ← openingParen? 0 (v.back close) with
  | none => return v.indentOf close
  | some position =>
    let unfinished : Look Nat :=
      return (← v.expressionIndent (close + 1)) + v.style.indent.continuationSize
    match v.kindBefore? position 1 with
    | some .switchKw | some .catchKw | some .declareKw => return v.indentOf (position - 1)
    | some .name =>
      if v.kindBefore? position 2 == some .functionKw then return v.indentOf (position - 2)
      else unfinished
    | some k =>
      if isControlHeader k then return v.indentOf (position - 1) + v.style.indent.indentSize
      else unfinished
    | none => unfinished

/-- The indent after the token at a position, which is the last one before the caret. -/
def afterToken (v : View) (caret last : Nat) (kind : TokenKind) : Look Nat := do
  let size := v.style.indent.indentSize
  let continuation := v.style.indent.continuationSize
  match kind with
  | .openTag | .openTagWithEcho | .blockEnd => return v.indentOf last
  | .closeTag => return v.lineIndent caret
  | .blockBegin | .elseKw | .doKw | .tryKw | .finallyKw => return v.indentOf last + size
  | .semiColon => v.afterSemicolon last
  | .parenBegin | .attributeStart => return v.indentOf last + continuation
  | .arrayBegin => return v.indentOf last + v.style.indent.arrayItemSize
  | .comma => v.afterComma last
  | .parenEnd => v.afterParen last
  | .colon =>
    if ← endsCaseLabel 0 (v.back last) then return v.indentOf last + size
    return (← v.expressionIndent last) + continuation
  | kind =>
    let stop := if isDangling kind then last else last + 1
    return (← v.expressionIndent stop) + continuation

/-- The indent of a line typed at the caret.  A comment on a line of its own sets it. -/
def predict (v : View) (caret : Nat) : Look Nat := do
  match v.lastComment?.filter fun t => v.startsLine t.start with
  | some comment => return v.lineIndent comment.start
  | none =>
    match v.tokens.back? with
    | none =>
      ranOff
      return 0
    | some t => v.afterToken caret (v.tokens.size - 1) t.kind

end View

/-! ### Windows -/

/-- Might a block comment that closes in the text have opened in front of it? -/
def closesComment (window : List Char) : Bool :=
  match Text.find? "*/" window, Text.find? "/*" window with
  | some close, some start => close < start
  | some _, none => true
  | none, _ => false

/-- Does the text end inside a section, as its last tag tells? -/
def endsInCode (text : List Char) : Bool :=
  match Text.findLast? "<?" text, Text.findLast? "?>" text with
  | some start, some close => close < start
  | some _, none => true
  | none, _ => false

/-- The indent by the text from an offset to the caret; none if that cannot be read by itself, or
if a rule needs what stands before it. -/
def predictWindow? (source : String) (start caret : Nat) (style : Style) : Option Nat := do
  let window := Text.slice source start caret
  if closesComment window.toList then none
  let mode := if endsInCode (Text.before source start).toList then Mode.code else Mode.markup
  let tokens ← (tokenizeIn mode window).toOption
  let raw := tokens.map fun t => { t with start := t.start + start }
  let (indent, ranOff) := ((View.of source style raw).predict caret).run false
  if ranOff then none else some indent

/-- The offset of the line that is so many lines above the last one, if there are more. -/
def windowStart? (text : List Char) (lines : Nat) : Option Nat :=
  let all := Text.splitLines text
  if lines + 1 < all.length then
    some (Text.sizeOfChars (Text.joinLines (all.take (all.length - 1 - lines))) + 1)
  else none

/-- The sizes of the windows for a text of so many lines: eight lines, then four times as many. -/
def windowSizes (lines : Nat) : List Nat :=
  ((List.range (lines.log2 + 1)).map fun k => 8 * Nat.pow 4 k).takeWhile (· < lines)

/-- The column at which a line starts that is typed at the caret. -/
def predictIndent (source : String) (caret : Nat) (style : Style) : Nat :=
  let caret := Text.floorBoundary source (min caret (Text.size source))
  let text := Text.before source caret
  let sizes := windowSizes (Render.newlines text)
  let inWindow (lines : Nat) : Option Nat := do
    predictWindow? source (← windowStart? text.toList lines) caret style
  match sizes.findSome? inWindow with
  | some indent => indent
  | none =>
    match tokenize text with
    | .error _ => Render.lineIndentAt style source caret
    | .ok raw => (((View.of source style raw).predict caret).run false).1

/-- The edit that starts a new line at the caret. -/
def newLineEdit (source : String) (caret : Nat) (style : Style) : Edit :=
  ⟨caret, 0, "\n" ++ style.indentString (predictIndent source caret style)⟩

end CodeLayout.Indent
