import CodeLayout.Annotate.Emit

/-!
# What constructs have in common

Leaves with the gaps around them, keyword constructs, and lists in parentheses.  A construct visits
its children through a `Visit`, which also tells them the kind of the node around them.
-/

namespace CodeLayout.Annotate

/-- How a construct of the given kind visits a child. -/
abbrev Visit := NodeKind → Tree → Emit Unit

/-- Visit some children one after the other. -/
def visitAll (visit : Visit) (kind : NodeKind) (children : List Tree) : Emit Unit :=
  children.forM (visit kind)

/-! ### Leaves -/

/-- May the token stand right behind a keyword? -/
def hugsKeyword : TokenKind → Bool
  | .parenBegin | .parenEnd | .arrayEnd | .semiColon | .comma | .colon | .doubleColon | .eof => true
  | _ => false

/-- A keyword, with a space after it unless a sign follows. -/
def keyword (index : Nat) : Emit Unit := do
  leaf index
  match ← peekSignificant with
  | some kind => if !hugsKeyword kind then role .afterKeyword
  | none => return ()

/-- A leaf with a role after it. -/
def leafThen (index : Nat) (after : Role) : Emit Unit := do
  leaf index
  role after

/-- A leaf with a role before it. -/
def thenLeaf (front : Role) (index : Nat) : Emit Unit := do
  before front
  leaf index

/-- A leaf with roles on both sides. -/
def between (front : Role) (index : Nat) (after : Role) : Emit Unit := do
  before front
  leaf index
  role after

/-- The semicolon at the end of a statement. -/
def semi (index : Nat) : Emit Unit := between .beforeSemi index .afterSemi

/-- A comma. -/
def comma (index : Nat) : Emit Unit := between .beforeComma index .afterComma

/-- An operator. -/
def op (index : Nat) (kind : OpKind) : Emit Unit := between (.beforeOp kind) index (.afterOp kind)

/-- The opening sign of a pair. -/
def openParen (paren : ParenKind) (index : Nat) : Emit Unit :=
  between (.beforeParen paren) index (.afterLeftParen paren)

/-- The closing sign of a pair. -/
def closeParen (paren : ParenKind) (index : Nat) : Emit Unit :=
  thenLeaf (.beforeRightParen paren) index

/-- A leaf of a statement that a keyword leads. -/
def walkLeaf (index : Nat) : Emit Unit := do
  match ← kindAt index with
  | .semiColon => semi index
  | .comma => comma index
  | .assign => op index .assign
  | .doubleArrow => op index .keyValue
  | .asKw => op index .textual
  | kind => if kind.isKeyword then keyword index else leaf index

/-- A child of a statement or expression that a keyword leads. -/
def walkChild (visit : Visit) (kind : NodeKind) (c : Tree) : Emit Unit :=
  match c with
  | .leaf i _ => walkLeaf i
  | .node .attributeGroup _ _ => do
    visit kind c
    role .afterAttribute
  | .node .. => visit kind c

/-- A statement or expression that a keyword leads. -/
def walk (visit : Visit) (kind : NodeKind) (children : List Tree) : Emit Unit :=
  children.forM (walkChild visit kind)

/-! ### Lists -/

/-- How a list in parentheses is laid out. -/
structure ListShape where
  kind : ListKind
  paren : ParenKind
  /-- The indent of the elements of a broken list. -/
  indent : Nat
  /-- The opening sign is a gap's concern. -/
  spaceBefore : Bool := true
  /-- Break after the opening sign of a broken list. -/
  breakOpen : Bool := false
  /-- Break before the closing sign of a broken list. -/
  breakClose : Bool := false

namespace ListShape

/-- The shape that the style gives to a list. -/
def of (style : Style) (kind : ListKind) (paren : ParenKind) : ListShape :=
  let shape : ListShape := { kind, paren, indent := style.indent.continuationSize }
  match kind with
  | .params =>
    { shape with
      breakOpen := style.wrap.methodParamsAfterLeftParen
      breakClose := style.wrap.methodParamsRightParen }
  | .args =>
    { shape with
      breakOpen := style.wrap.methodCallArgsAfterLeftParen
      breakClose := style.wrap.methodCallArgsRightParen }
  | .array =>
    { shape with indent := style.indent.arrayItemSize, breakOpen := true, breakClose := true }
  | _ => shape

/-- The same without the gap before the opening sign. -/
def hugging (shape : ListShape) : ListShape := { shape with spaceBefore := false }

end ListShape

/-- Is the leaf an opening sign? -/
def isOpenSign : TokenKind → Bool
  | .parenBegin | .arrayBegin | .attributeStart | .blockBegin => true
  | _ => false

/-- Is the leaf a closing sign? -/
def isCloseSign : TokenKind → Bool
  | .parenEnd | .arrayEnd | .blockEnd => true
  | _ => false

/-- The position of the first leaf whose token kind passes the test, and its token. -/
def findSign? (test : TokenKind → Bool) (children : List Tree) : Emit (Option (Nat × Nat)) := do
  let c ← read
  return children.zipIdx.findSome? fun ci =>
    match ci.1.leafIndex? with
    | some i => if test (c.tokens.getD i default).kind then some (ci.2, i) else none
    | none => none

/-- The position of the last leaf whose token kind passes the test, and its token. -/
def findLastSign? (test : TokenKind → Bool) (children : List Tree) :
    Emit (Option (Nat × Nat)) := do
  let c ← read
  return children.zipIdx.reverse.findSome? fun ci =>
    match ci.1.leafIndex? with
    | some i => if test (c.tokens.getD i default).kind then some (ci.2, i) else none
    | none => none

/-- The tokens of the leaves that are of one of the kinds. -/
def signs (kinds : List TokenKind) (children : List Tree) : Emit (List Nat) := do
  let c ← read
  return (children.filterMap Tree.leafIndex?).filter fun i =>
    kinds.contains (c.tokens.getD i default).kind

/-- Is a line broken next to one of the tokens? -/
def breaksAround (indices : List Nat) : Emit Bool :=
  indices.anyM fun i => do return (← breaksBefore i) || (← breaksAfter i)

/-- Is a line broken behind the opening sign, before the closing one or next to a comma? -/
def listHasNewline (openAt : Nat) (inner : List Tree) (closeAt : Nat) : Emit Bool := do
  if ← breaksAfter openAt then return true
  if ← breaksBefore closeAt then return true
  breaksAround (← signs [.comma] inner)

/-- Let an element with a key join the alignment group of its list. -/
def joinGroup (group : Nat) (c : Tree) : Emit Unit := do
  if c.isKind .arrayElement && (← findLeaf? c .doubleArrow).isSome then
    let width ← match c.children.head? with
      | some key => pure (lineWidth? (← textOf key))
      | none => pure none
    awaitMember group width c

/-- The elements of a list and the commas between them. -/
def listElements (visit : Visit) (kind : NodeKind) (list : ListKind) (group : Option Nat) :
    List Tree → Emit Unit
  | [] => return ()
  | c :: rest => do
    match ← leafKind? c, c.leafIndex? with
    | some .comma, some i =>
      comma i
      if !rest.isEmpty then role (.inList list)
    | _, _ =>
      if let some g := group then joinGroup g c
      visit kind c
    listElements visit kind list group rest

/-- A list with the opening and closing signs at the given positions and tokens. -/
def listBetween (visit : Visit) (kind : NodeKind) (shape : ListShape) (group : Option Nat)
    (children : List Tree) (opened closed : Nat × Nat) : Emit Unit := do
  visitAll visit kind (children.take opened.1)
  let inner := (children.take closed.1).drop (opened.1 + 1)
  let wrap := (← read).style.listWrap shape.kind
  let sourceBroken ← if inner.isEmpty then pure false else listHasNewline opened.2 inner closed.2
  let broken := !inner.isEmpty && (sourceBroken || wrap != .never)
  let edges := !inner.isEmpty &&
    (wrap == .always || (sourceBroken && shape.kind != .array))
  if shape.spaceBefore then before (.beforeParen shape.paren)
  leaf opened.2
  if broken then indent shape.indent
  role (if edges && shape.breakOpen then .breakList else .afterLeftParen shape.paren)
  mark .anchor
  listElements visit kind shape.kind group inner
  mark .anchorEnd
  if broken then dedentBefore shape.indent
  before (if edges && shape.breakClose then .breakList else .beforeRightParen shape.paren)
  leaf closed.2

/-- A list in parentheses, brackets or braces.  Elements with keys join the alignment group. -/
def list (visit : Visit) (kind : NodeKind) (children : List Tree) (shape : ListShape)
    (group : Option Nat) : Emit Unit := do
  match ← findSign? isOpenSign children, ← findLastSign? isCloseSign children with
  | some opened, some closed =>
    if closed.1 ≤ opened.1 then visitAll visit kind children
    else listBetween visit kind shape group children opened closed
  | _, _ => visitAll visit kind children

end CodeLayout.Annotate
