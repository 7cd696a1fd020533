import CodeLayout.Token.Basic
import CodeLayout.Token.Lexeme

/-!
# From text to tokens

`lexemes` reads lexemes as long as a rule applies and answers them with the characters left over.
`tokenize` places the lexemes at their offsets, ends them with an empty token at the end of the
text, and refuses a text of which something is left over.
-/

namespace CodeLayout

/-- Is the text ahead markup or inside a section? -/
inductive Mode where
  | markup | code
deriving DecidableEq, Repr

/-- The mode after a token of the kind. -/
def Mode.next (mode : Mode) : TokenKind → Mode
  | .openTag | .openTagWithEcho => .code
  | .closeTag => .markup
  | _ => mode

/-- The lexeme that the characters start with. -/
def Mode.rule : Mode → List Char → Option Lexeme.Match
  | .markup => Lexeme.markupRule
  | .code => Lexeme.codeRule

/-- How far the rules get at a place; in markup every text can be read. -/
def Mode.attempt : Mode → List Char → Lexeme.Attempt
  | .markup, _ => ⟨0, 0, 0⟩
  | .code, cs => Lexeme.codeAttempt cs

/-- A lexeme: a kind and the characters that it covers. -/
structure Lexeme where
  kind : TokenKind
  text : List Char
deriving DecidableEq, Repr

/-- Why a text has no tokens. -/
inductive LexProblem where
  /-- A string over several lines was opened. -/
  | hereString
  /-- No token starts here. -/
  | unrecognized
deriving DecidableEq, Repr

/-- A text that cannot be read, with the stretch to blame. -/
structure LexError where
  problem : LexProblem
  start : Nat
  stop : Nat
deriving DecidableEq, Repr

/-- The wording of a problem. -/
def LexProblem.message : LexProblem → String
  | hereString => "heredoc and nowdoc strings are not supported"
  | unrecognized => "unrecognized input"

namespace Lexer

/-- The lexemes of a text from its start on, and the characters at which no rule applies. -/
def lexemes (mode : Mode) : List Char → List Lexeme × List Char
  | [] => ([], [])
  | c :: cs =>
    match mode.rule (c :: cs) with
    | some (kind, n + 1) =>
      let (rest, left) := lexemes (mode.next kind) (cs.drop n)
      (⟨kind, c :: cs.take n⟩ :: rest, left)
    | _ => ([], c :: cs)
termination_by cs => cs.length
decreasing_by simp only [List.length_drop, List.length_cons]; omega

/-- Lexemes as tokens, the first at the given offset. -/
def place (start : Nat) : List Lexeme → List Token
  | [] => []
  | x :: xs =>
    let length := Text.sizeOfChars x.text
    ⟨x.kind, start, length⟩ :: place (start + length) xs

/-- The attempt at a place of a text, counted in bytes from the start of the text. -/
def placeAttempt (mode : Mode) (start : Nat) (cs : List Char) : Lexeme.Attempt :=
  let a := mode.attempt cs
  let offset (n : Nat) : Nat := start + Text.sizeOfChars (cs.take n)
  ⟨offset a.reached, offset a.start, offset a.stop⟩

/-- The attempt that got further; the first of two that got equally far. -/
def further (a b : Lexeme.Attempt) : Lexeme.Attempt := if a.reached < b.reached then b else a

/-- The furthest of the attempts where the lexemes of the characters start and where reading stops
after them. -/
def furthest (mode : Mode) (start : Nat) (cs : List Char) : List Lexeme → Lexeme.Attempt
  | [] => placeAttempt mode start cs
  | x :: xs =>
    further (placeAttempt mode start cs)
      (furthest (mode.next x.kind) (start + Text.sizeOfChars x.text) (cs.drop x.text.length) xs)

/-- The blame lies with the attempt that got furthest, which need not be one at the place where
reading stops: a comment that is never closed gets to the end of the text. -/
def blame (mode : Mode) (source : String) (read : List Lexeme) : LexError :=
  let a := furthest mode 0 source.toList read
  if Lexeme.starts Lexeme.hereSign (Text.after source a.start).toList then
    ⟨.hereString, a.start, a.stop⟩
  else ⟨.unrecognized, a.start, a.stop⟩

end Lexer

/-- The tokens of a text that starts in the given mode, with an empty one at its end. -/
def tokenizeIn (mode : Mode) (source : String) : Except LexError (Array Token) :=
  match Lexer.lexemes mode source.toList with
  | (read, []) => .ok ((Lexer.place 0 read).toArray.push ⟨.eof, Text.size source, 0⟩)
  | (read, _) => .error (Lexer.blame mode source read)

/-- The tokens of a file, which starts with markup. -/
def tokenize (source : String) : Except LexError (Array Token) := tokenizeIn .markup source

/-- The tokens of a fragment that starts inside a section. -/
def tokenizeCode (source : String) : Except LexError (Array Token) := tokenizeIn .code source

end CodeLayout
