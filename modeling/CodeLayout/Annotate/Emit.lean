import CodeLayout.Error
import CodeLayout.Stream.Item
import CodeLayout.Style.Query
import CodeLayout.Text.Blank
import CodeLayout.Word

/-!
# Emitting items

Annotation goes over the tokens of a source from left to right and emits items.  A cursor points at
the next token; every token is handed out once, so each piece of the source becomes an item once, in
order.  Marks are emitted at once, or queued for the next leaf: those that lead land before the
comments that stand on lines of their own in front of the leaf, the others right before the leaf.

The operations of this module are the only ones that change the state.
-/

namespace CodeLayout.Annotate

/-- What annotation looks at. -/
structure Context where
  source : String
  tokens : Array Token
  style : Style

/-- A mark that waits for the next leaf. -/
structure Pending where
  kind : ItemKind
  lead : Bool
  breakable : Bool
deriving DecidableEq, Repr

/-- A node, told by its kind and its first token. -/
structure Target where
  kind : NodeKind
  first : Option Nat
deriving DecidableEq, Repr

/-- How far annotation has come. -/
structure State where
  /-- The index of the next token. -/
  cursor : Nat := 0
  items : Array Item := #[]
  pending : List Pending := []
  groups : AlignTable := {}
  /-- A member of an alignment group that waits for its node. -/
  member : Option (Target × MemberRef) := none
  /-- The number of open stretches in which no line may be broken. -/
  unbreakable : Nat := 0

/-- A step of annotation. -/
abbrev Emit := ReaderT Context (StateT State (Except LayoutError))

/-! ### Looking at tokens -/

/-- The token at an index. -/
def tokenAt (index : Nat) : Emit Token := return (← read).tokens.getD index default

/-- The kind of the token at an index. -/
def kindAt (index : Nat) : Emit TokenKind := return (← tokenAt index).kind

/-- The offset of the next token. -/
def offset : Emit Nat := do
  let c ← read
  return match c.tokens[(← get).cursor]? with
    | some t => t.start
    | none => Text.size c.source

/-- May a line be broken here? -/
def breakable : Emit Bool := return (← get).unbreakable == 0

/-- The tokens right before an index that pass a test, the nearest first. -/
def stretchBefore (test : Token → Bool) (tokens : Array Token) : Nat → List Token
  | 0 => []
  | n + 1 =>
    match tokens[n]? with
    | some t => if test t then t :: stretchBefore test tokens n else []
    | none => []

/-- The first of the last `n` tokens, as long as they pass a test. -/
def stretchOfLast (test : Token → Bool) (tokens : Array Token) : Nat → List Token
  | 0 => []
  | n + 1 =>
    match tokens[tokens.size - (n + 1)]? with
    | some t => if test t then t :: stretchOfLast test tokens n else []
    | none => []

/-- The trivia right before an index, the nearest first. -/
def triviaBefore (index : Nat) : Emit (List Token) :=
  return stretchBefore Token.isTrivia (← read).tokens index

/-- The trivia from an index on. -/
def triviaFrom (index : Nat) : Emit (List Token) := do
  let tokens := (← read).tokens
  return stretchOfLast Token.isTrivia tokens (tokens.size - index)

/-- The kind of the next token that is not trivia. -/
def peekSignificant : Emit (Option TokenKind) := do
  let cursor := (← get).cursor
  let skipped := (← triviaFrom cursor).length
  return ((← read).tokens[cursor + skipped]?).map Token.kind

/-! ### Marks -/

/-- Emit an item. -/
def push (item : Item) : Emit Unit := modify fun s => { s with items := s.items.push item }

/-- Emit a mark here, ahead of the trivia that follows. -/
def mark (kind : ItemKind) : Emit Unit := do
  push (.mark kind (← offset) (← breakable))

/-- Emit the role of the gap here. -/
def role (r : Role) : Emit Unit := mark (.role r)

/-- Queue a mark for the next leaf. -/
def queue (kind : ItemKind) (lead : Bool) : Emit Unit := do
  let p : Pending := ⟨kind, lead, ← breakable⟩
  modify fun s => { s with pending := s.pending ++ [p] }

/-- Queue a role for the place right before the next leaf. -/
def before (r : Role) : Emit Unit := queue (.role r) false

/-- Queue a role for the place before the comments in front of the next leaf. -/
def lead (r : Role) : Emit Unit := queue (.role r) true

/-- Indent by a width. -/
def indent (width : Nat) : Emit Unit := mark (.indent (Word.toInt width))

/-- Take an indent back. -/
def dedent (width : Nat) : Emit Unit := mark (.indent (-Word.toInt width))

/-- Take an indent back right before the next leaf. -/
def dedentBefore (width : Nat) : Emit Unit := queue (.indent (-Word.toInt width)) false

/-- Emit what the step emits as a stretch in which no line may be broken. -/
def unbroken (step : Emit Unit) : Emit Unit := do
  mark .unbreakableStart
  modify fun s => { s with unbreakable := s.unbreakable + 1 }
  step
  modify fun s => { s with unbreakable := s.unbreakable - 1 }
  mark .unbreakableEnd

/-- Emit the queued marks that lead, or those that do not, at the offset. -/
def flush (lead : Bool) (offset : Nat) : Emit Unit :=
  modify fun s =>
    let (flushed, kept) := s.pending.partition (·.lead == lead)
    { s with
      pending := kept
      items := s.items ++ (flushed.map fun p => Item.mark p.kind offset p.breakable).toArray }

/-! ### Pieces of the source -/

/-- Emit a token as a piece. -/
def pushToken (kind : ItemKind) (t : Token) : Emit Unit := do
  push ⟨kind, t.start, t.length, ← breakable⟩

/-- Answer that the token at the index is not the next one. -/
def outOfStep {α : Type} (index : Nat) : Emit α := do
  let t ← tokenAt (min index ((← read).tokens.size - 1))
  throw (.outOfStep index t.start (← get).cursor)

/-- Hand out the tokens before an index, which may not lie behind the cursor. -/
def takeUntil (index : Nat) : Emit (List Token) := do
  let c ← read
  let cursor := (← get).cursor
  if index < cursor || index > c.tokens.size then outOfStep index
  else
    modify fun s => { s with cursor := index }
    return (c.tokens.extract cursor index).toList

/-- Hand out the token at an index, which must be the next one. -/
def take (index : Nat) : Emit Token := do
  if index != (← get).cursor then outOfStep index
  else
    match (← read).tokens[index]? with
    | none => outOfStep index
    | some t =>
      modify fun s => { s with cursor := index + 1 }
      return t

/-- What has been seen of the trivia in front of a leaf. -/
structure Seen where
  /-- The marks that lead have been emitted. -/
  leadFlushed : Bool := false
  /-- A line has started since the last piece. -/
  lineStarted : Bool := false

/-- The item kind of a comment. -/
def commentKind : TokenKind → ItemKind
  | .lineComment => .lineComment
  | .docComment => .docComment
  | _ => .blockComment

/-- Emit the marks that lead, unless they have been. -/
def flushLead (seen : Seen) (offset : Nat) : Emit Unit := do
  if !seen.leadFlushed then flush true offset

/-- Emit a token in front of a leaf. -/
def triviaToken (seen : Seen) (t : Token) : Emit Seen := do
  match t.kind with
  | .whitespace =>
    let newline := Text.hasNewline (t.text (← read).source)
    pushToken (if newline then .lineBreak else .blanks) t
    return { seen with lineStarted := seen.lineStarted || newline }
  | .lineComment | .blockComment | .docComment =>
    if seen.lineStarted then flushLead seen t.start
    pushToken (commentKind t.kind) t
    return ⟨seen.leadFlushed || seen.lineStarted, false⟩
  | .closeTag =>
    flushLead seen t.start
    push (.mark (.role .beforeCloseTag) t.start (← breakable))
    pushToken .closeTag t
    return ⟨true, false⟩
  | .openTag =>
    pushToken .openTag t
    push (.mark (.role .afterOpenTag) t.stop (← breakable))
    return seen
  | .inlineHtml =>
    pushToken .html t
    return { seen with lineStarted := false }
  | .eof => return seen
  | _ =>
    -- no leaf covers it: it is kept as it is
    pushToken .verbatim t
    return { seen with lineStarted := false }

/-- Emit the tokens before an index, with the queued marks among them. -/
def trivia (index : Nat) : Emit Unit := do
  let tokens ← takeUntil index
  let seen ← tokens.foldlM triviaToken {}
  let here ← offset
  flushLead seen here
  flush false here

/-- Emit a cast as its parentheses, its type and the blanks between them. -/
def castPieces (t : Token) : Emit Unit := do
  let inner := ((t.text (← read).source).toList.drop 1).dropLast
  let lead := (inner.takeWhile Text.isTabOrSpace).length
  let type := ((inner.drop lead).takeWhile (!Text.isTabOrSpace ·)).length
  let trail := inner.length - lead - type
  let b ← breakable
  let start := t.start
  push ⟨.text, start, 1, b⟩
  push (.mark (.role (.afterLeftParen .typeCast)) (start + 1) b)
  if lead > 0 then push ⟨.blanks, start + 1, lead, b⟩
  push ⟨.text, start + 1 + lead, type, b⟩
  if trail > 0 then push ⟨.blanks, start + 1 + lead + type, trail, b⟩
  let close := t.stop - 1
  push (.mark (.role (.beforeRightParen .typeCast)) close b)
  push ⟨.text, close, 1, b⟩
  role .afterTypeCast

/-- Emit the leaf at an index after the trivia in front of it. -/
def leaf (index : Nat) : Emit Unit := do
  trivia index
  let t ← take index
  match t.kind with
  | .cast => castPieces t
  | .attributeStart => pushToken .attributeStart t
  | .openTagWithEcho =>
    pushToken .openTag t
    role .afterOpenTag
  | _ => pushToken .text t

/-- Emit all that a node covers as one piece, after the trivia in front of it. -/
def verbatim (t : Tree) : Emit Unit := do
  match t.first?, t.last? with
  | some first, some last =>
    trivia first
    let taken ← takeUntil (last + 1)
    match taken.head?, taken.getLast? with
    | some head, some tail =>
      push ⟨.verbatim, head.start, tail.stop - head.start, ← breakable⟩
    | _, _ => return ()
  | _, _ => return ()

/-! ### Alignment groups -/

/-- Add a group. -/
def newGroup (kind : GroupKind) : Emit Nat := do
  let (groups, g) := (← get).groups.newGroup kind
  modify fun s => { s with groups }
  return g

/-- Add a member to a group, which waits for the node. -/
def awaitMember (group : Nat) (width : Option Nat) (node : Tree) : Emit Unit := do
  let (groups, m) := (← get).groups.addMember group width
  modify fun s => { s with groups }
  match node.kind?, m with
  | some kind, some m => modify fun s => { s with member := some (⟨kind, node.first?⟩, m) }
  | _, _ => return ()

/-- The member that waits for the node, which it waits for no longer. -/
def takeMember (node : Tree) : Emit (Option MemberRef) := do
  match (← get).member, node.kind? with
  | some (target, m), some kind =>
    if target == ⟨kind, node.first?⟩ then
      modify fun s => { s with member := none }
      return some m
    return none
  | _, _ => return none

/-! ### Questions about the source -/

/-- The kind of the token of a leaf. -/
def leafKind? (t : Tree) : Emit (Option TokenKind) := do
  match t.leafIndex? with
  | some i => return some (← kindAt i)
  | none => return none

/-- The first child that is a leaf of the token kind. -/
def findLeaf? (t : Tree) (kind : TokenKind) : Emit (Option Nat) := do
  let c ← read
  return (t.children.filterMap Tree.leafIndex?).find? fun i =>
    (c.tokens.getD i default).kind == kind

/-- The text that a tree covers. -/
def textOf (t : Tree) : Emit String := do
  let c ← read
  match t.first?, t.last? with
  | some first, some last =>
    return Text.slice c.source (c.tokens.getD first default).start
      (c.tokens.getD last default).stop
  | _, _ => return ""

/-- Does the text of the tree go over several lines? -/
def isMultiline (t : Tree) : Emit Bool := return Text.hasNewline (← textOf t)

/-- The number of characters of a text on one line. -/
def lineWidth? (text : String) : Option Nat :=
  if Text.hasNewline text then none else some text.length

/-- Does the token end a line? -/
def isLineBreak (source : String) (t : Token) : Bool :=
  match t.kind with
  | .whitespace => Text.hasNewline (t.text source)
  | .lineComment => true
  | _ => false

/-- Is the line broken between the token and the next one that is not trivia? -/
def breaksAfter (index : Nat) : Emit Bool :=
  return (← triviaFrom (index + 1)).any (isLineBreak (← read).source)

/-- Is the line broken between the token and the last one before it that is not trivia? -/
def breaksBefore (index : Nat) : Emit Bool :=
  return (← triviaBefore index).any (isLineBreak (← read).source)

/-- Is there a blank line or a comment between two nodes? -/
def separated (prev next : Tree) : Emit Bool := do
  let c ← read
  match prev.last?, next.first? with
  | some a, some b =>
    return (c.tokens.extract (a + 1) b).any fun t =>
      t.kind.isComment ||
        (t.kind == .whitespace && Text.occurrences (t.text c.source) '\n' ≥ 2)
  | _, _ => return true

/-- Does a doc comment stand right in front of the node? -/
def hasDocComment (t : Tree) : Emit Bool := do
  let c ← read
  match t.first? with
  | some first =>
    let isBetween (t : Token) : Bool := t.kind == .whitespace || t.kind.isComment
    return (stretchBefore isBetween c.tokens first).any (·.kind == .docComment)
  | none => return false

end CodeLayout.Annotate
