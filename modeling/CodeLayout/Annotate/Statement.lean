import CodeLayout.Annotate.Shared

/-!
# Statements

Lists of statements with the blank lines between them, blocks, and control flow.
-/

namespace CodeLayout.Annotate

/-! ### Lists of statements -/

/-- Where a list of statements stands. -/
inductive Place where
  | block
  | classBody
  /-- After a case label; each statement starts a line of its own. -/
  | caseBody
deriving DecidableEq, Repr

/-- What an alignment group of statements lines up. -/
inductive AlignKey where
  | assign | property | const
deriving DecidableEq, Repr

/-- Members that hold data. -/
def isField : NodeKind → Bool
  | .propertyDecl | .classConstDecl | .enumCase => true
  | _ => false

/-- The keyword that tells what kind of name a statement imports. -/
def useType? (t : Tree) : Emit (Option TokenKind) := do
  match t.children[1]? with
  | some c =>
    match ← leafKind? c with
    | some .functionKw => return some .functionKw
    | some .constKw => return some .constKw
    | _ => return none
  | none => return none

/-- The blank-line policies between two members. -/
def memberPolicies (prev item : NodeKind) (grouped : Bool) : List BlankPolicy :=
  (if isField item then
    if isField prev then (if grouped then [] else [.betweenFields]) else [.beforeFields]
  else if isField prev then [.afterFields] else [])
  ++ (if item == .traitUse && prev != .traitUse then [.beforeUseTrait] else [])
  ++ (if prev == .traitUse && item != .traitUse then [.afterUseTrait] else [])
  ++ (if item == .methodDecl then [.beforeFunction] else [])

/-- The blank-line policies between two statements; imports of one kind stay together. -/
def statementPolicies (prev item : NodeKind) (sameUseType : Bool) : List BlankPolicy :=
  (if item.isTypeDecl then [.beforeClass]
  else if item == .functionDecl then [.beforeFunction]
  else if item == .namespaceDecl then [.beforeNamespace]
  else if item == .useStmt then
    if prev == .useStmt then (if sameUseType then [] else [.betweenUseTypes]) else [.beforeUse]
  else [])
  ++ (if prev == .namespaceDecl then [.afterNamespace] else [])
  ++ (if prev == .useStmt && item != .useStmt then [.afterUse] else [])

/-- Queue the blank lines between two items of a list. -/
def blankRoles (prev item : Tree) (place : Place) : Emit Unit := do
  match prev.kind?, item.kind? with
  | some prevKind, some kind =>
    let policies ←
      if place == .classBody then
        let grouped := (← read).style.blankLines.groupFieldsWithoutDoc && !(← hasDocComment item)
        pure (memberPolicies prevKind kind grouped)
      else
        let same := (← useType? prev) == (← useType? item)
        pure (statementPolicies prevKind kind same)
    policies.forM fun p => lead (.blank p)
  | _, _ => return ()

/-- The only child of the kind. -/
def single? (t : Tree) (kind : NodeKind) : Option Tree :=
  match t.children.filter (·.isKind kind) with
  | [e] => some e
  | _ => none

/-- The node of a statement that holds an equals sign to line up. -/
def alignTarget? (item : Tree) : Option (AlignKey × Tree) :=
  match item.kind? with
  | some .exprStmt =>
    match item.childNodes.head? with
    | some expr => if expr.isKind .assignExpr then some (.assign, expr) else none
    | none => none
  | some .propertyDecl => (single? item .propertyElement).map (AlignKey.property, ·)
  | some .classConstDecl | some .constStmt =>
    (single? item .constElement).map (AlignKey.const, ·)
  | _ => none

/-- Let a statement join the alignment group of the statements before it, or start one.  A group
goes on through statements of one kind with nothing but single line breaks between them. -/
def joinStatements (prev : Option Tree) (group : Option (Nat × AlignKey)) (item : Tree) :
    Emit (Option (Nat × AlignKey)) := do
  match alignTarget? item with
  | none => return none
  | some (key, target) =>
    if (← findLeaf? target .assign).isNone then return none
    let width ← match target.children.head? with
      | some lhs => pure (lineWidth? (← textOf lhs))
      | none => pure none
    let g ← match group, prev with
      | some (g, k), some p =>
        if k == key && !(← separated p item) then pure g else newGroup .assignment
      | _, _ => newGroup .assignment
    awaitMember g width target
    return some (g, key)

/-- The blank lines after a declaration. -/
def afterDeclaration (item : Tree) : Emit Unit := do
  match item.kind? with
  | some kind =>
    if kind.isTypeDecl then role (.blank .afterClass)
    else if kind == .functionDecl || kind == .methodDecl then role (.blank .afterFunction)
  | none => return ()

/-- The statements of a list, given the one before them and its alignment group. -/
def statementsAfter (visit : Visit) (parent : NodeKind) (place : Place) (prev : Option Tree)
    (group : Option (Nat × AlignKey)) : List Tree → Emit Unit
  | [] => return ()
  | item :: rest => do
    if prev.isSome || place == .caseBody then lead .beforeStatement
    if let some p := prev then blankRoles p item place
    let group ← joinStatements prev group item
    visit parent item
    afterDeclaration item
    statementsAfter visit parent place (some item) group rest

/-- The statements of a list. -/
def statements (visit : Visit) (parent : NodeKind) (place : Place) (items : List Tree) :
    Emit Unit :=
  statementsAfter visit parent place none none items

/-! ### Blocks and bodies -/

/-- Statements or members in braces, of the construct that owns the braces. -/
def braced (visit : Visit) (kind : NodeKind) (children : List Tree) (construct : Construct)
    (front : Option Role) (place : Place) : Emit Unit := do
  match ← findSign? (· == .blockBegin) children, ← findLastSign? (· == .blockEnd) children with
  | some opened, some closed =>
    let size := (← read).style.indent.indentSize
    visitAll visit kind (children.take opened.1)
    if let some r := front then before r
    leaf opened.2
    indent size
    role (.afterLeftBrace construct)
    statements visit kind place
      (((children.take closed.1).drop (opened.1 + 1)).filter Tree.isNode)
    dedentBefore size
    before (.beforeRightBrace construct)
    leaf closed.2
  | _, _ => visitAll visit kind children

/-- A block of the construct. -/
def blockOf (visit : Visit) (construct : Construct) (front : Option Role) (t : Tree) : Emit Unit :=
  braced visit .block t.children construct front .block

/-- A block of the construct, with the gap before its brace. -/
def ownBlock (visit : Visit) (construct : Construct) (t : Tree) : Emit Unit :=
  blockOf visit construct (some (.beforeLeftBrace construct)) t

/-- The body of a control statement, with or without braces. -/
def body (visit : Visit) (kind : NodeKind) (construct : Construct) (t : Tree) : Emit Unit := do
  match t.kind? with
  | some .block => ownBlock visit construct t
  | some .emptyStmt =>
    before .beforeSemi
    visit kind t
  | _ =>
    let size := (← read).style.indent.indentSize
    indent size
    role (.bodyWithoutBraces construct)
    unbroken (visit kind t)
    dedent size

/-! ### Control flow -/

/-- A condition in parentheses at the start of the children; answers the children after it. -/
def condition (visit : Visit) (kind : NodeKind) (paren : ParenKind) (first : Bool) :
    List Tree → Emit (List Tree)
  | [] => return []
  | .leaf i _ :: rest => do
    match ← kindAt i with
    | .parenBegin =>
      if first then openParen paren i else leaf i
      condition visit kind paren false rest
    | .parenEnd =>
      closeParen paren i
      return rest
    | .asKw =>
      op i .textual
      condition visit kind paren false rest
    | .doubleArrow =>
      op i .keyValue
      condition visit kind paren false rest
    | _ =>
      leaf i
      condition visit kind paren false rest
  | c :: rest => do
    visit kind c
    condition visit kind paren false rest

/-- A keyword, a condition and a body; answers the children after the body. -/
def conditional (visit : Visit) (kind : NodeKind) (children : List Tree) (paren : ParenKind)
    (construct : Construct) : Emit (List Tree) := do
  match children with
  | [] => return []
  | word :: rest =>
    visit kind word
    match ← condition visit kind paren true rest with
    | [] => return []
    | t :: rest =>
      body visit kind construct t
      return rest

/-- A keyword, a condition and a body, and nothing after them. -/
def conditionalOnly (visit : Visit) (kind : NodeKind) (children : List Tree) (paren : ParenKind)
    (construct : Construct) : Emit Unit :=
  discard (conditional visit kind children paren construct)

/-- A condition with its alternatives. -/
def ifStmt (visit : Visit) (kind : NodeKind) (children : List Tree) : Emit Unit := do
  let clauses ← conditional visit kind children .ifCondition .ifBranch
  clauses.forM fun c => do
    before (.beforeKeyword .elseWord)
    visit kind c

/-- The last alternative.  A condition right behind the keyword stays on its line. -/
def elseClause (visit : Visit) (kind : NodeKind) (children : List Tree) : Emit Unit := do
  match children with
  | word :: t :: _ =>
    visit kind word
    if t.isKind .ifStmt then
      role .afterKeyword
      visit kind t
    else body visit kind .elseBranch t
  | _ => visitAll visit kind children

/-- The parts of a loop with its test at the end; `n` bounds their number. -/
def doParts (visit : Visit) (kind : NodeKind) : Nat → List Tree → Emit Unit
  | 0, _ => return ()
  | _, [] => return ()
  | n + 1, c :: rest => do
    match ← leafKind? c, c.leafIndex? with
    | some .doKw, _ =>
      visit kind c
      match rest with
      | [] => return ()
      | t :: rest =>
        body visit kind .doLoop t
        doParts visit kind n rest
    | some .whileKw, _ =>
      before (.beforeKeyword .whileWord)
      visit kind c
      doParts visit kind n (← condition visit kind .whileCondition true rest)
    | some .semiColon, some i =>
      semi i
      doParts visit kind n rest
    | _, _ =>
      visit kind c
      doParts visit kind n rest

/-- A loop with its test at the end. -/
def doStmt (visit : Visit) (kind : NodeKind) (children : List Tree) : Emit Unit :=
  doParts visit kind children.length children

/-- A child of the head of a counting loop, between its parentheses. -/
def forPart (visit : Visit) (kind : NodeKind) (c : Tree) : Emit Unit := do
  match c with
  | .leaf i _ =>
    match ← kindAt i with
    | .semiColon =>
      between .beforeSemi i .afterForSemi
      role (.inList .forHead)
    | .comma => comma i
    | _ => leaf i
  | .node .. => visit kind c

/-- A counting loop.  Its head is laid out like a list. -/
def forStmt (visit : Visit) (kind : NodeKind) (children : List Tree) : Emit Unit := do
  match ← findSign? (· == .parenBegin) children, ← findSign? (· == .parenEnd) children with
  | some opened, some closed =>
    let style := (← read).style
    let inner := (children.take closed.1).drop (opened.1 + 1)
    let broken ←
      if style.listWrap .forHead != .never then pure true
      else breaksAround (← signs [.semiColon, .comma] inner)
    let width := style.indent.continuationSize
    visitAll visit kind (children.take opened.1)
    before (.beforeParen .forHead)
    leaf opened.2
    if broken then indent width
    role (.afterLeftParen .forHead)
    mark .anchor
    inner.forM (forPart visit kind)
    mark .anchorEnd
    if broken then dedentBefore width
    closeParen .forHead closed.2
    match children.drop (closed.1 + 1) with
    | [] => return ()
    | t :: _ => body visit kind .forLoop t
  | _, _ => visitAll visit kind children

/-- A choice among cases. -/
def switchStmt (visit : Visit) (kind : NodeKind) (children : List Tree) : Emit Unit := do
  match children with
  | [] => return ()
  | word :: rest =>
    visit kind word
    visitAll visit kind (← condition visit kind .switchSubject true rest)

/-- The braces of a choice and the cases between them, each on a line of its own. -/
def switchParts (visit : Visit) (kind : NodeKind) (size : Nat) (first : Bool) :
    List Tree → Emit Unit
  | [] => return ()
  | c :: rest => do
    match ← leafKind? c with
    | some .blockBegin =>
      before (.beforeLeftBrace .switch)
      visit kind c
      indent size
      role (.afterLeftBrace .switch)
      switchParts visit kind size first rest
    | some .blockEnd =>
      dedentBefore size
      before (.beforeRightBrace .switch)
      visit kind c
      switchParts visit kind size first rest
    | _ =>
      if !first then lead .beforeStatement
      visit kind c
      switchParts visit kind size false rest

/-- The cases of a choice. -/
def switchBody (visit : Visit) (kind : NodeKind) (children : List Tree) : Emit Unit := do
  switchParts visit kind (← read).style.indent.indentSize true children

/-- A part of a case label before its colon. -/
def labelPart (visit : Visit) (kind : NodeKind) (c : Tree) : Emit Unit := do
  match ← leafKind? c, c.leafIndex? with
  | some .caseKw, some i => keyword i
  | _, _ => visit kind c

/-- A case: its label and its statements, which are indented. -/
def caseClause (visit : Visit) (kind : NodeKind) (children : List Tree) : Emit Unit := do
  let labelEnd := match ← findSign? (fun k => k == .colon || k == .semiColon) children with
    | some sign => sign.1
    | none => children.length - 1
  (children.take labelEnd).forM (labelPart visit kind)
  match children[labelEnd]?.bind Tree.leafIndex? with
  | some i => thenLeaf .beforeColon i
  | none => pure ()
  let items := (children.drop (labelEnd + 1)).filter Tree.isNode
  if !items.isEmpty then
    let size := (← read).style.indent.indentSize
    indent size
    statements visit kind .caseBody items
    dedentBefore size

/-- A block with its handlers. -/
def tryStmt (visit : Visit) (kind : NodeKind) (children : List Tree) : Emit Unit :=
  children.forM fun c => do
    match c.kind? with
    | some .block => ownBlock visit .tryBlock c
    | some .catchClause =>
      before (.beforeKeyword .catchWord)
      visit kind c
    | some .finallyClause =>
      before (.beforeKeyword .finallyWord)
      visit kind c
    | _ => visit kind c

/-- The parts of a handler; a type is told from its variable by the child after it. -/
def catchParts (visit : Visit) (kind : NodeKind) : List Tree → Emit Unit
  | [] => return ()
  | .leaf i _ :: rest => do
    match ← kindAt i with
    | .parenBegin => openParen .catchTypes i
    | .parenEnd => closeParen .catchTypes i
    | .pipe => op i .multiCatch
    | .name =>
      leaf i
      match rest with
      | next :: _ => if (← leafKind? next) == some .varName then role .afterType
      | [] => pure ()
    | _ => leaf i
    catchParts visit kind rest
  | c :: rest => do
    if c.isKind .block then ownBlock visit .catchBlock c else visit kind c
    catchParts visit kind rest

/-- The block that always runs. -/
def finallyClause (visit : Visit) (kind : NodeKind) (children : List Tree) : Emit Unit :=
  children.forM fun c =>
    if c.isKind .block then ownBlock visit .finallyBlock c else visit kind c

/-- The parts of directives; a node after the parentheses is their body. -/
def declareParts (visit : Visit) (kind : NodeKind) (inHead : Bool) : List Tree → Emit Unit
  | [] => return ()
  | .leaf i _ :: rest => do
    match ← kindAt i with
    | .parenBegin =>
      openParen .declareHead i
      declareParts visit kind inHead rest
    | .parenEnd =>
      closeParen .declareHead i
      declareParts visit kind false rest
    | .assign =>
      op i .declareEqual
      declareParts visit kind inHead rest
    | .comma =>
      comma i
      declareParts visit kind inHead rest
    | .semiColon =>
      semi i
      declareParts visit kind inHead rest
    | _ =>
      leaf i
      declareParts visit kind inHead rest
  | c :: rest => do
    if inHead then visit kind c else body visit kind .other c
    declareParts visit kind inHead rest

/-- A namespace, with a block or without. -/
def namespaceDecl (visit : Visit) (kind : NodeKind) (children : List Tree) : Emit Unit :=
  children.forM fun c => do
    match c with
    | .leaf i _ => walkLeaf i
    | .node .block _ _ => ownBlock visit .other c
    | .node .. => visit kind c

/-- Names imported below a common one. -/
def groupUseList (visit : Visit) (kind : NodeKind) (children : List Tree) : Emit Unit := do
  let style := (← read).style
  let shape : ListShape :=
    { (ListShape.of style .groupUse .other).hugging with
      indent := style.indent.indentSize
      breakOpen := style.wrap.groupUseBraces
      breakClose := style.wrap.groupUseBraces }
  before (.beforeLeftBrace .groupUse)
  list visit kind children shape none

end CodeLayout.Annotate
