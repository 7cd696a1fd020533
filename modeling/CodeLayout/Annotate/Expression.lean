import CodeLayout.Annotate.Statement

/-!
# Expressions

Operators, calls, member access, arrays, choices by value, and closures.
-/

namespace CodeLayout.Annotate

/-! ### Operators -/

/-- The operator kind of a sign between two operands. -/
def binaryOp : TokenKind → OpKind
  | .dot => .concat
  | .andKw | .orKw | .xorKw | .instanceOfKw => .textual
  | .coalesce => .coalescing
  | _ => .binary

/-- A sign that gives a value to what stands before it. -/
def isBinding : TokenKind → Bool
  | .assign | .compoundAssign | .doubleArrow => true
  | _ => false

/-- Queue a mark of a member of an alignment group. -/
def queueMember (mark : MemberRef → ItemKind) (member : Option MemberRef) : Emit Unit := do
  if let some m := member then queue (mark m) false

/-- A name or key with its value.  The sign between them may be lined up with its neighbours. -/
def aligned (visit : Visit) (kind : NodeKind) (t : Tree) : Emit Unit := do
  let member ← takeMember t
  let opKind : OpKind := if kind == .arrayElement then .keyValue else .assign
  if !t.children.isEmpty then queueMember .alignStart member
  t.children.forM fun c => do
    match ← leafKind? c, c.leafIndex? with
    | some k, some i =>
      if isBinding k then
        queueMember .align member
        op i opKind
      else leaf i
    | _, _ => visit kind c

/-- Two operands; the operator is the second child. -/
def binary (visit : Visit) (kind : NodeKind) (children : List Tree) : Emit Unit :=
  children.zipIdx.forM fun (c, n) => do
    match c.leafIndex? with
    | some i => if n == 1 then op i (binaryOp (← kindAt i)) else leaf i
    | none => visit kind c

/-- Would the two signs read as another one when they touch? -/
def merges (kind : TokenKind) (next : Option TokenKind) : Bool :=
  match kind, next with
  | .minus, some .minus | .minus, some .decrement => true
  | .plus, some .plus | .plus, some .increment => true
  | _, _ => false

/-- An operator in front of its operand. -/
def unary (visit : Visit) (kind : NodeKind) (children : List Tree) : Emit Unit := do
  match children with
  | .leaf i _ :: rest =>
    leaf i
    if !merges (← kindAt i) (← peekSignificant) then role (.afterOp .unary)
    visitAll visit kind rest
  | _ => visitAll visit kind children

/-- An operator behind its operand. -/
def trailing (visit : Visit) (kind : NodeKind) : List Tree → Emit Unit
  | [] => return ()
  | [.leaf i _] => thenLeaf (.beforeOp .unary) i
  | c :: rest => do
    visit kind c
    trailing visit kind rest

/-- The parts of a choice after its condition.  The branches are never broken inside;
`afterQuestion` tells that the sign before was the question mark. -/
def ternaryParts (visit : Visit) (kind : NodeKind) (afterQuestion : Bool) :
    List Tree → Emit Unit
  | [] => return ()
  | c :: rest => do
    match ← leafKind? c, c.leafIndex? with
    | some .question, some i =>
      let short ← match rest with
        | next :: _ => pure ((← leafKind? next) == some .colon)
        | [] => pure false
      if short then thenLeaf (.beforeOp .ternary) i else op i .ternary
      ternaryParts visit kind true rest
    | some .colon, some i =>
      if afterQuestion then between .beforeColon i (.afterOp .ternary) else op i .ternary
      ternaryParts visit kind false rest
    | _, _ =>
      unbroken (visit kind c)
      ternaryParts visit kind false rest

/-- A choice between two values. -/
def ternary (visit : Visit) (kind : NodeKind) (children : List Tree) : Emit Unit := do
  match children with
  | [] => return ()
  | c :: rest =>
    visit kind c
    ternaryParts visit kind false rest

/-- Something between an opening and a closing sign. -/
def delimited (visit : Visit) (kind : NodeKind) (paren : ParenKind) (children : List Tree) :
    Emit Unit :=
  children.forM fun c => do
    match c.leafIndex? with
    | some i =>
      let k ← kindAt i
      if isOpenSign k then leafThen i (.afterLeftParen paren)
      else if isCloseSign k then closeParen paren i
      else leaf i
    | none => visit kind c

/-! ### Calls and access -/

/-- The arguments of a call, of an attribute or of a class without a name. -/
def argList (visit : Visit) (parent kind : NodeKind) (children : List Tree) : Emit Unit := do
  let paren : ParenKind := match parent with
    | .attributeItem => .attributeDecl
    | .anonClass => .anonymousClass
    | _ => .methodCall
  list visit kind children (.of (← read).style .args paren) none

/-- An argument with its name. -/
def namedArg (visit : Visit) (kind : NodeKind) (children : List Tree) : Emit Unit :=
  children.zipIdx.forM fun (c, n) => do
    match c.leafIndex? with
    | some i =>
      if n == 1 && (← kindAt i) == .colon then between .beforeColon i .afterColon else leaf i
    | none => visit kind c

/-- The sign between an object and its member.  After a call it is a link of a chain. -/
def memberSign (chained : Bool) (i : Nat) : Emit Unit := do
  let link (opKind : OpKind) : Emit Unit :=
    if chained then between .inChainedMethodCalls i (.afterOp opKind) else op i opKind
  match ← kindAt i with
  | .arrow => link .object
  | .nullsafeArrow => link .nullsafe
  | .doubleColon => op i .scope
  | _ => leaf i

/-- Access to a member; the sign is the second child. -/
def memberAccess (visit : Visit) (kind : NodeKind) (children : List Tree) : Emit Unit := do
  let chained := children.head?.any (·.isKind .methodCall)
  children.zipIdx.forM fun (c, n) => do
    match c.leafIndex? with
    | some i => if n == 1 then memberSign chained i else leaf i
    | none => visit kind c

/-- Access to an element by its key. -/
def indexExpr (visit : Visit) (kind : NodeKind) (children : List Tree) : Emit Unit :=
  children.zipIdx.forM fun (c, n) => do
    match ← leafKind? c, c.leafIndex? with
    | some .arrayBegin, some i => if n > 0 then leafThen i (.afterLeftParen .other) else leaf i
    | some .arrayEnd, some i => closeParen .other i
    | _, _ => visit kind c

/-- A class without a name. -/
def anonClass (visit : Visit) (kind : NodeKind) (children : List Tree) : Emit Unit := do
  match children with
  | .leaf i _ :: rest =>
    leaf i
    if rest.head?.any fun c => c.isKind .extendsClause || c.isKind .implementsClause then
      role .afterKeyword
    visitAll visit kind rest
  | _ => visitAll visit kind children

/-! ### Arrays and choices by value -/

/-- An array or a pattern of one.  The keys of a literal over several lines are lined up. -/
def arrayLiteral (visit : Visit) (kind : NodeKind) (t : Tree) : Emit Unit := do
  let style := (← read).style
  let bracket ← match t.children.head? with
    | some c => pure ((← leafKind? c) == some .arrayBegin)
    | none => pure false
  let shape := if bracket then (ListShape.of style .array .arrayBrackets).hugging
    else ListShape.of style .array .arrayDecl
  let keyed ← t.childNodes.anyM fun e => do
    return e.isKind .arrayElement && (← findLeaf? e .doubleArrow).isSome
  let group ← if keyed && (← isMultiline t) then some <$> newGroup .arrayInit else pure none
  list visit kind t.children shape group

/-- The width of the conditions of an arm on one line. -/
def armWidth? (arm : Tree) : Emit (Option Nat) := do
  let c ← read
  match arm.first?, ← findLeaf? arm .doubleArrow with
  | some first, some arrow =>
    return match (c.tokens.extract first arrow).toList.reverse.find? (!·.isTrivia) with
      | some last =>
        lineWidth? (Text.slice c.source (c.tokens.getD first default).start last.stop)
      | none => none
  | _, _ => return none

/-- The parts of a choice by value after its keyword; `inSubject` until its parenthesis closes. -/
def matchParts (visit : Visit) (kind : NodeKind) (group : Option Nat) (inSubject : Bool) :
    List Tree → Emit Unit
  | [] => return ()
  | .leaf i _ :: rest => do
    let size := (← read).style.indent.indentSize
    match ← kindAt i, inSubject with
    | .parenBegin, true =>
      openParen .matchSubject i
      matchParts visit kind group true rest
    | .parenEnd, true =>
      closeParen .matchSubject i
      matchParts visit kind group false rest
    | .blockBegin, _ =>
      thenLeaf (.beforeLeftBrace .matchArms) i
      indent size
      role (.afterLeftBrace .matchArms)
      matchParts visit kind group inSubject rest
    | .blockEnd, _ =>
      dedentBefore size
      thenLeaf (.beforeRightBrace .matchArms) i
      matchParts visit kind group inSubject rest
    | .comma, _ =>
      thenLeaf .beforeComma i
      if rest.head?.any (·.isKind .matchArm) then role .beforeStatement
      matchParts visit kind group inSubject rest
    | _, _ =>
      leaf i
      matchParts visit kind group inSubject rest
  | c :: rest => do
    if c.isKind .matchArm then
      if let some g := group then awaitMember g (← armWidth? c) c
    visit kind c
    matchParts visit kind group inSubject rest

/-- A choice by value.  The arrows of its arms are lined up. -/
def matchExpr (visit : Visit) (kind : NodeKind) (t : Tree) : Emit Unit := do
  match t.children with
  | [] => return ()
  | word :: rest =>
    visit kind word
    let group ← if t.childNodes.any (·.isKind .matchArm) then some <$> newGroup .matchArm
      else pure none
    matchParts visit kind group true rest

/-- An arm: its conditions and its value. -/
def matchArm (visit : Visit) (kind : NodeKind) (t : Tree) : Emit Unit := do
  let member ← takeMember t
  if !t.children.isEmpty then queueMember .alignStart member
  t.children.forM fun c => do
    match c with
    | .leaf i _ =>
      match ← kindAt i with
      | .doubleArrow =>
        queueMember .align member
        op i .keyValue
      | .comma => comma i
      | _ => leaf i
    | .node .. => visit kind c

/-! ### Closures -/

/-- A function without a name. -/
def closure (visit : Visit) (kind : NodeKind) (children : List Tree) : Emit Unit :=
  children.forM fun c => do
    match c with
    | .node .attributeGroup _ _ =>
      visit kind c
      role .afterAttribute
    | .node .block _ _ => ownBlock visit .function c
    | .node .. => visit kind c
    | .leaf i _ =>
      match ← kindAt i with
      | .staticKw => leafThen i .afterKeyword
      | .doubleArrow => op i .keyValue
      | _ => leaf i

/-- The variables that a closure takes along. -/
def closureUse (visit : Visit) (kind : NodeKind) (children : List Tree) : Emit Unit := do
  before (.beforeOp .textual)
  list visit kind children (.of (← read).style .plain .anonymousFunction) none

end CodeLayout.Annotate
