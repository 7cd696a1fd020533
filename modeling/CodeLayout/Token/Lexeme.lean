import CodeLayout.Text.Blank
import CodeLayout.Text.Identifier
import CodeLayout.Text.Slice
import CodeLayout.Token.Kind

/-!
# Lexemes

A rule looks at the characters ahead and answers the kind and the number of characters of the
lexeme that it reads there, or nothing.  Counting characters instead of cutting the text makes it
plain that nothing is lost: the lexeme is `take n` and the rest is `drop n` of the same characters.

Inside a section the rules are tried in the order blanks, comments, casts, numbers, strings, names
and signs; `codeRule` is their union.  Outside, everything up to the next open tag is one lexeme.

Where no rule applies, the text cannot be read.  `codeAttempt` tells how far the rules get, which
decides on which characters the blame falls.
-/

namespace CodeLayout.Lexeme

/-- What a rule reads: the kind of the lexeme and its number of characters. -/
abbrev Match := TokenKind × Nat

/-- Do the characters start with the given text? -/
def starts (text : String) (cs : List Char) : Bool := text.toList.isPrefixOf cs

/-! ### Blanks and comments -/

/-- The blanks between tokens. -/
def isBlank (c : Char) : Bool := c == ' ' || c == '\t' || c == '\r' || c == '\n'

/-- The characters that end a line comment. -/
def endsLine (c : Char) : Bool :=
  c == '\n' || c == '\r' || c == '\x0b' || c == '\x0c'
    || c == '\u0085' || c == '\u2028' || c == '\u2029'

/-- Blanks between two tokens. -/
def blankRule (cs : List Char) : Option Match :=
  match (cs.takeWhile isBlank).length with
  | 0 => none
  | n => some (.whitespace, n)

/-- The number of characters of a line comment after its opening sign: it stops before the end of
the line, before a close tag and at the end of the text. -/
def lineTail : List Char → Nat
  | [] => 0
  | '?' :: '>' :: _ => 0
  | c :: cs => if endsLine c then 0 else lineTail cs + 1

/-- The number of characters through the first closing sign of a block comment. -/
def throughClose : List Char → Option Nat
  | [] => none
  | '*' :: '/' :: _ => some 2
  | _ :: cs => (throughClose cs).map (· + 1)

/-- A comment; one that is never closed is none. -/
def commentRule : List Char → Option Match
  | '/' :: '/' :: cs => some (.lineComment, lineTail cs + 2)
  | '#' :: '[' :: _ => none
  | '#' :: cs => some (.lineComment, lineTail cs + 1)
  | '/' :: '*' :: cs =>
    match cs with
    | '*' :: c :: rest =>
      if isBlank c then (throughClose (c :: rest)).map fun n => (.docComment, n + 3)
      else (throughClose cs).map fun n => (.blockComment, n + 2)
    | _ => (throughClose cs).map fun n => (.blockComment, n + 2)
  | _ => none

/-! ### Casts -/

/-- The types that a cast may name. -/
def castTypes : List String :=
  ["int", "integer", "bool", "boolean", "float", "double", "real", "string", "array", "object",
    "unset", "binary"]

/-- The text in lower case, where only ASCII letters have a case. -/
def lowerWord (cs : List Char) : String := String.ofList (cs.map Char.toLower)

/-- A type in parentheses, with blanks around it. -/
def castRule : List Char → Option Match
  | '(' :: cs =>
    let lead := (cs.takeWhile Text.isTabOrSpace).length
    let inner := cs.drop lead
    let word := Text.identLength inner
    if castTypes.contains (lowerWord (inner.take word)) then
      let rest := inner.drop word
      let trail := (rest.takeWhile Text.isTabOrSpace).length
      match rest.drop trail with
      | ')' :: _ => some (.cast, lead + word + trail + 2)
      | _ => none
    else none
  | _ => none

/-! ### Numbers -/

/-- The number of decimal digits at the start. -/
def digits (cs : List Char) : Nat := (cs.takeWhile Char.isDigit).length

/-- The number of characters of further groups of digits, each after an underscore. -/
def digitGroups : List Char → Nat
  | [] => 0
  | c :: cs =>
    if c == '_' then
      match digits cs with
      | 0 => 0
      | n => 1 + n + digitGroups (cs.drop n)
    else 0
termination_by cs => cs.length
decreasing_by simp only [List.length_drop, List.length_cons]; omega

/-- The number of characters of a decimal: digits, then groups of digits; zero if there is none. -/
def decimal (cs : List Char) : Nat :=
  match digits cs with
  | 0 => 0
  | n => n + digitGroups (cs.drop n)

/-- The number of characters of an exponent, zero if there is none. -/
def exponent : List Char → Nat
  | c :: cs =>
    if c == 'e' || c == 'E' then
      let sign := match cs with
        | s :: _ => if s == '+' || s == '-' then 1 else 0
        | [] => 0
      match digits (cs.drop sign) with
      | 0 => 0
      | n => 1 + sign + n
    else 0
  | [] => 0

/-- A digit of a hexadecimal or binary number. -/
def isHexDigit (c : Char) : Bool :=
  c.isDigit || ('a' ≤ c && c ≤ 'f') || ('A' ≤ c && c ≤ 'F') || c == '_'

/-- The letter after the zero of a number with a base sign. -/
def isBaseSign (c : Char) : Bool := c == 'x' || c == 'X' || c == 'b' || c == 'B'

/-- The number of characters of a number with a base sign, zero if there is none. -/
def based : List Char → Nat
  | '0' :: c :: cs =>
    if isBaseSign c then
      match (cs.takeWhile isHexDigit).length with
      | 0 => 0
      | n => n + 2
    else 0
  | _ => 0

/-- The number of characters of a number with a fraction or an exponent, zero if there is none.  A
fraction may lack digits on one side of the point. -/
def fraction (cs : List Char) : Nat :=
  match decimal cs, cs.drop (decimal cs) with
  | 0, '.' :: rest =>
    match decimal rest with
    | 0 => 0
    | m => 1 + m + exponent (rest.drop m)
  | 0, _ => 0
  | n, '.' :: rest =>
    let m := decimal rest
    n + 1 + m + exponent (rest.drop m)
  | n, rest =>
    match exponent rest with
    | 0 => 0
    | e => n + e

/-- A number with a base sign, else one with a fraction or an exponent, else a decimal. -/
def numberRule (cs : List Char) : Option Match :=
  match based cs, fraction cs, decimal cs with
  | 0, 0, 0 => none
  | 0, 0, n => some (.int, n)
  | 0, n, _ => some (.float, n)
  | n, _, _ => some (.int, n)

/-! ### Strings -/

/-- The number of characters through the closing quote.  A backslash takes the character after it
along. -/
def throughQuote (quote : Char) : List Char → Option Nat
  | [] => none
  | c :: cs =>
    if c == '\\' then
      match cs with
      | [] => none
      | _ :: rest => (throughQuote quote rest).map (· + 2)
    else if c == quote then some 1
    else (throughQuote quote cs).map (· + 1)

/-- The signs that open and close a string. -/
def isQuote (c : Char) : Bool := c == '\x27' || c == '\x22' || c == '\x60'

/-- A string in single, double or backward quotes. -/
def stringRule : List Char → Option Match
  | [] => none
  | c :: cs => if isQuote c then (throughQuote c cs).map fun n => (.str, n + 1) else none

/-! ### Names -/

/-- The number of characters of further parts of a name, each after a backslash. -/
def nameParts : List Char → Nat
  | [] => 0
  | c :: cs =>
    if c == '\\' then
      match Text.identLength cs with
      | 0 => 0
      | n => 1 + n + nameParts (cs.drop n)
    else 0
termination_by cs => cs.length
decreasing_by simp only [List.length_drop, List.length_cons]; omega

/-- A variable, a name with its qualifiers, or a single word, which may be reserved. -/
def nameRule : List Char → Option Match
  | [] => none
  | c :: cs =>
    if c == '$' then
      match Text.identLength cs with
      | 0 => none
      | n => some (.varName, n + 1)
    else if c == '\\' then
      match Text.identLength cs with
      | 0 => none
      | n => some (.name, 1 + n + nameParts (cs.drop n))
    else
      match Text.identLength (c :: cs) with
      | 0 => none
      | n =>
        match nameParts ((c :: cs).drop n) with
        | 0 => some ((TokenKind.ofWord? (String.ofList ((c :: cs).take n))).getD .name, n)
        | m => some (.name, n + m)

/-! ### Signs -/

/-- The signs in the order in which they are tried, the longer ones first. -/
def signs : List (String × TokenKind) := [
  ("===", .identical), ("!==", .notIdentical), ("<=>", .spaceship), ("**=", .compoundAssign),
  ("...", .ellipsis), ("<<=", .compoundAssign), (">>=", .compoundAssign),
  ("??=", .compoundAssign), ("?->", .nullsafeArrow),
  ("+=", .compoundAssign), ("-=", .compoundAssign), ("*=", .compoundAssign),
  ("/=", .compoundAssign), (".=", .compoundAssign), ("%=", .compoundAssign),
  ("&=", .compoundAssign), ("|=", .compoundAssign), ("^=", .compoundAssign),
  ("==", .equal), ("!=", .notEqual), ("<>", .notEqual), ("<=", .lessEqual),
  (">=", .greaterEqual), ("&&", .boolAnd), ("||", .boolOr), ("++", .increment),
  ("--", .decrement), ("<<", .shiftLeft), (">>", .shiftRight), ("??", .coalesce),
  ("->", .arrow), ("=>", .doubleArrow), ("::", .doubleColon), ("**", .pow),
  ("#[", .attributeStart),
  ("+", .plus), ("-", .minus), ("*", .star), ("/", .slash), ("%", .percent), ("=", .assign),
  ("<", .less), (">", .greater), ("!", .not), (".", .dot), ("&", .ampersand), ("|", .pipe),
  ("^", .caret), ("~", .tilde), ("?", .question), (":", .colon), (";", .semiColon),
  (",", .comma), ("(", .parenBegin), (")", .parenEnd), ("[", .arrayBegin), ("]", .arrayEnd),
  ("\x7b", .blockBegin), ("\x7d", .blockEnd), ("@", .atSign), ("\\", .backslash),
  ("$", .dollar)]

/-- The opening sign of a string over several lines, which is refused. -/
def hereSign : String := "<<<"

/-- The first sign of the list that the text starts with. -/
def signRule (cs : List Char) : Option Match :=
  if starts hereSign cs then none
  else (signs.find? fun sign => starts sign.1 cs).map fun sign => (sign.2, sign.1.length)

/-! ### Sections -/

/-- The tag that ends a section. -/
def closeTagRule : List Char → Option Match
  | '?' :: '>' :: _ => some (.closeTag, 2)
  | _ => none

/-- One token inside a section. -/
def codeRule (cs : List Char) : Option Match :=
  closeTagRule cs <|> blankRule cs <|> commentRule cs <|> castRule cs <|> numberRule cs
    <|> stringRule cs <|> nameRule cs <|> signRule cs

/-! ### Attempts -/

/-- How far the rules get at a place: the number of characters that the furthest of them looks at
before it gives up, and the stretch of characters on which it does. -/
structure Attempt where
  reached : Nat
  start : Nat
  stop : Nat
deriving DecidableEq, Repr

namespace Attempt

/-- A rule gives up at the end of the characters. -/
def atEnd (cs : List Char) : Attempt := ⟨cs.length, cs.length, cs.length⟩

/-- A rule gives up on the character after the first `n`, which it has looked at, or at the end. -/
def after (n : Nat) (cs : List Char) : Attempt :=
  if n < cs.length then ⟨n + 1, n, n + 1⟩ else atEnd cs

end Attempt

/-- A line comment goes on up to the line break or close tag behind its first `n` characters. -/
def lineAttempt (n : Nat) (cs : List Char) : Attempt :=
  match cs.drop n with
  | '\r' :: '\n' :: _ => ⟨n + 1, n, n + 2⟩
  | '?' :: '>' :: _ => ⟨n + 1, n, n + 2⟩
  | _ => .after n cs

/-- A string goes on up to its closing quote, or to the end if there is none. -/
def stringAttempt (cs : List Char) : Attempt :=
  match stringRule cs with
  | some (_, n) => ⟨n, n - 1, n⟩
  | none => .atEnd cs

/-- How far the rules of a section get.  The signs of a string over several lines are refused
together; most rules give up on the first character that they cannot read, without looking at
it. -/
def codeAttempt (cs : List Char) : Attempt :=
  match cs with
  | '0' :: c :: rest =>
    if isBaseSign c then .after ((rest.takeWhile isHexDigit).length + 2) cs else ⟨0, 0, 1⟩
  | '/' :: '*' :: _ => if (commentRule cs).isSome then ⟨0, 0, 1⟩ else .atEnd cs
  | c :: _ =>
    match commentRule cs with
    | some (_, n) => lineAttempt n cs
    | none =>
      if isQuote c then stringAttempt cs
      else if starts hereSign cs then ⟨1, 0, hereSign.length⟩
      else ⟨0, 0, 1⟩
  | [] => .atEnd cs

/-! ### Markup -/

/-- The tag that starts a section: either the echo form or the long form in any case, which ends
where its word ends. -/
def openTagRule : List Char → Option Match
  | '<' :: '?' :: '=' :: _ => some (.openTagWithEcho, 3)
  | '<' :: '?' :: cs =>
    let n := Text.identLength cs
    if lowerWord (cs.take n) == "php" then some (.openTag, n + 2) else none
  | _ => none

/-- The number of characters before the first open tag. -/
def markupLength : List Char → Nat
  | [] => 0
  | c :: cs => if (openTagRule (c :: cs)).isSome then 0 else markupLength cs + 1

/-- An open tag, or the markup before the next one. -/
def markupRule (cs : List Char) : Option Match :=
  openTagRule cs <|>
    match markupLength cs with
    | 0 => none
    | n => some (.inlineHtml, n)

end CodeLayout.Lexeme
