import CodeLayout.Grammar.Problem
import CodeLayout.Tree.Builder

/-!
# Reading symbols into a tree

The grammar reads a row of symbols: the kinds of the significant tokens, each with the mark whether
a close tag stands right in front of it.  Nothing else about the source can influence a parse.  A
parse moves a position through the row, adds every symbol that it passes to a tree under
construction, and collects problems.

All changes of the state go through the operations of this module: `bump` alone moves the position,
and it adds the symbol it passes to the tree.
-/

namespace CodeLayout.Grammar

/-- What the grammar sees of a significant token. -/
structure Symbol where
  kind : TokenKind
  /-- A close tag stands right in front. -/
  closed : Bool
deriving DecidableEq, Repr, Inhabited

/-- A row of symbols. -/
structure Input where
  symbols : Array Symbol
  /-- A close tag stands between the last symbol and the end. -/
  endClosed : Bool
deriving DecidableEq, Repr, Inhabited

/-- How far a parse has come. -/
structure State where
  /-- The number of symbols passed. -/
  position : Nat := 0
  /-- The tree under construction; its leaves are positions, each of width one. -/
  builder : Tree.Builder := {}
  problems : Array Problem := #[]
  /-- How many of the problems lie inside a node that marks them. -/
  wrapped : Nat := 0
  /-- Has a loop or the recursion been ended by its bound? -/
  cutShort : Bool := false
deriving Inhabited, Repr

/-- A parse of a row of symbols. -/
abbrev Parse := ReaderT Input (StateM State)

/-! ### Looking -/

/-- The kind of the symbol `n` places ahead. -/
def peekAt (n : Nat) : Parse (Option TokenKind) := do
  return ((← read).symbols[(← get).position + n]?).map Symbol.kind

/-- The kind of the next symbol. -/
def peek : Parse (Option TokenKind) := peekAt 0

/-- The kinds of the next `n` symbols, or of those that are left. -/
def ahead (n : Nat) : Parse (List TokenKind) := do
  let position := (← get).position
  return ((← read).symbols.extract position (position + n)).toList.map Symbol.kind

/-- Is the next symbol of the kind? -/
def check (kind : TokenKind) : Parse Bool := return (← peek) == some kind

/-- Is the next symbol of one of the kinds? -/
def checkAny (kinds : List TokenKind) : Parse Bool :=
  return match ← peek with
    | some kind => kinds.contains kind
    | none => false

/-- Is no symbol left? -/
def atEnd : Parse Bool := return (← peek).isNone

/-- Does a close tag stand right in front of the next symbol, or of the end? -/
def closedHere : Parse Bool := do
  let input ← read
  return match input.symbols[(← get).position]? with
    | some symbol => symbol.closed
    | none => input.endClosed

/-! ### Moving and building -/

/-- Pass the next symbol, which becomes a leaf of the tree. -/
def bump : Parse Unit := do
  let input ← read
  modify fun s =>
    if s.position < input.symbols.size then
      { s with position := s.position + 1, builder := s.builder.token s.position 1 }
    else s

/-- Pass the next symbol if it is of the kind. -/
def eat (kind : TokenKind) : Parse Bool := do
  if ← check kind then
    bump
    return true
  return false

/-- Pass the next symbol if it is of the kind; any other stays. -/
def skip (kind : TokenKind) : Parse Unit := do
  discard (eat kind)

/-- The position among the children of the innermost open node. -/
def marker : Parse Nat := return (← get).builder.marker

/-- Put what the parse adds into a node of its own. -/
def node (kind : NodeKind) (parse : Parse Unit) : Parse Unit := do
  modify fun s => { s with builder := s.builder.start kind }
  parse
  modify fun s => { s with builder := s.builder.finish.1 }

/-- Put what was added since the marker, and what the parse adds, into a node of its own. -/
def wrap (since : Nat) (kind : NodeKind) (parse : Parse Unit) : Parse Unit := do
  modify fun s => { s with builder := s.builder.startAt since kind }
  parse
  modify fun s => { s with builder := s.builder.finish.1 }

/-! ### Problems -/

/-- Record a problem at the current position. -/
def report (cause : Cause) : Parse Unit :=
  modify fun s => { s with problems := s.problems.push ⟨s.position, cause⟩ }

/-- Record that something else was expected than the next symbol. -/
def unexpected (expected : Expected) : Parse Unit := do
  report (.unexpected expected (← peek))

/-- Pass the next symbol if it is of one of the kinds, else record a problem. -/
def expectAny (kinds : List TokenKind) : Parse Unit := do
  match ← peek with
  | some kind =>
    if kinds.contains kind then bump
    else report (.unexpected (.oneOf kinds) (some kind))
  | none => report (.atEnd (.oneOf kinds))

/-- Pass the next symbol if it is of the kind, else record a problem. -/
def expect (kind : TokenKind) : Parse Unit := expectAny [kind]

/-- Pass a name; where members are named, a reserved word is one. -/
def expectMemberName : Parse Unit := do
  match ← peek with
  | some kind => if kind.isKeyword then bump else expect .name
  | none => expect .name

/-- Pass the end of a statement: a semicolon, or a close tag, which is no symbol. -/
def expectEnd : Parse Unit := do
  if ← eat .semiColon then return ()
  if ← closedHere then return ()
  expect .semiColon

/-! ### Repetition -/

/-- A bound is reached: record that the parse does not go on as it would. -/
def cutOff : Parse Unit := modify fun s => { s with cutShort := true }

/-- Repeat a step at most `n` times, until it answers that it is done. -/
def repeatUpTo (step : Parse Bool) : Nat → Parse Unit
  | 0 => cutOff
  | n + 1 => do
    if ← step then repeatUpTo step n

/-- Repeat a step until it answers `false`.  A step that goes on passes a symbol, so there are no
more steps than symbols left and one. -/
def repeating (step : Parse Bool) : Parse Unit := do
  let input ← read
  repeatUpTo step (input.symbols.size + 1)

/-- Repeat a parse as long as the next symbol is of the kind, passing that symbol first. -/
def whileEating (kind : TokenKind) (parse : Parse Unit) : Parse Unit :=
  repeating do
    if ← eat kind then
      parse
      return true
    return false

/-- One or more of the same, with commas between them. -/
def commaSeparated (parse : Parse Unit) : Parse Unit := do
  parse
  whileEating .comma parse

/-- Items up to a closing symbol, each followed by a comma except perhaps the last. -/
def itemsUntil (close : TokenKind) (item : Parse Unit) : Parse Unit :=
  repeating do
    if (← check close) || (← atEnd) then return false
    item
    eat .comma

/-! ### Recovery -/

/-- Run a parse that stands for one item of a list.  If it passes no symbol, pass one; if it leads
to new problems, put everything it added into an error node. -/
def guarded (parse : Parse Unit) : Parse Unit := do
  let since ← marker
  let start := (← get).position
  parse
  if (← get).position == start && !(← atEnd) then
    unexpected .statement
    bump
  let s ← get
  if s.problems.size > s.wrapped then
    wrap since .error (pure ())
    modify fun s => { s with wrapped := s.problems.size }

end CodeLayout.Grammar
