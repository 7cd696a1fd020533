import CodeLayout.Grammar.Expression

/-!
# Statements

A statement is told by its first symbols.  Every statement of a list is guarded: it passes at least
one symbol, and problems inside it put it into an error node.
-/

namespace CodeLayout.Grammar

/-! ### Lists and bodies -/

/-- Statements up to one of the symbols or the end. -/
def statementsUntil (call : Rules) (terminators : List TokenKind) : Parse Unit :=
  repeating do
    if (← atEnd) || (← checkAny terminators) then return false
    call .statement
    return true

/-- Statements in braces. -/
def block (call : Rules) : Parse Unit :=
  node .block do
    expect .blockBegin
    statementsUntil call [.blockEnd]
    expect .blockEnd

/-- The body of a control statement.  A colon would open the form that ends with a keyword, which is
refused. -/
def body (call : Rules) : Parse Unit := do
  if ← check .colon then
    report (.refused .alternativeBody)
    bump
  else call .statement

/-- An expression as a statement. -/
def exprStmt (call : Rules) : Parse Unit :=
  node .exprStmt do
    call.expr
    expectEnd

/-! ### Control flow -/

/-- A keyword, a condition and a body. -/
def conditional (call : Rules) : Parse Unit := do
  bump
  call.condition
  body call

/-- A condition with its alternatives. -/
def ifStmt (call : Rules) : Parse Unit :=
  node .ifStmt do
    conditional call
    repeating do
      if ← check .elseIfKw then
        node .elseIfClause (conditional call)
        return true
      return false
    if ← check .elseKw then
      node .elseClause do
        bump
        body call

/-- A loop with its test at the end. -/
def doStmt (call : Rules) : Parse Unit :=
  node .doStmt do
    bump
    call .statement
    expect .whileKw
    call.condition
    expectEnd

/-- A part of the head of a counting loop, up to the symbol that ends it. -/
def forPart (call : Rules) (terminator : TokenKind) : Parse Unit := do
  if !(← check terminator) then commaSeparated call.expr
  expect terminator

/-- A counting loop. -/
def forStmt (call : Rules) : Parse Unit :=
  node .forStmt do
    bump
    expect .parenBegin
    forPart call .semiColon
    forPart call .semiColon
    forPart call .parenEnd
    body call

/-- A variable of a loop over items, perhaps a reference. -/
def foreachTarget (call : Rules) : Parse Unit := do
  if ← check .ampersand then
    node .unaryExpr do
      bump
      operand call
  else operand call

/-- A loop over items. -/
def foreachStmt (call : Rules) : Parse Unit :=
  node .foreachStmt do
    bump
    expect .parenBegin
    call.expr
    expect .asKw
    foreachTarget call
    if ← eat .doubleArrow then foreachTarget call
    expect .parenEnd
    body call

/-- A case and its statements. -/
def caseClause (call : Rules) : Parse Unit :=
  node .caseClause do
    if ← eat .caseKw then call.expr else bump
    expectAny [.colon, .semiColon]
    statementsUntil call [.caseKw, .defaultKw, .blockEnd]

/-- A choice among cases. -/
def switchStmt (call : Rules) : Parse Unit :=
  node .switchStmt do
    bump
    call.condition
    node .switchBody do
      expect .blockBegin
      repeating do
        if ← checkAny [.caseKw, .defaultKw] then
          caseClause call
          return true
        return false
      expect .blockEnd

/-- The handling of some types of exceptions. -/
def catchClause (call : Rules) : Parse Unit :=
  node .catchClause do
    bump
    expect .parenBegin
    expect .name
    whileEating .pipe (expect .name)
    skip .varName
    expect .parenEnd
    call .block

/-- A block with its handlers. -/
def tryStmt (call : Rules) : Parse Unit :=
  node .tryStmt do
    bump
    call .block
    repeating do
      if ← check .catchKw then
        catchClause call
        return true
      return false
    if ← check .finallyKw then
      node .finallyClause do
        bump
        call .block

/-! ### Simple statements -/

/-- A keyword, perhaps an expression, and the end of the statement. -/
def returnStmt (call : Rules) : Parse Unit :=
  node .returnStmt do
    bump
    if !(← atExpressionEnd) then call.expr
    expectEnd

/-- A jump out of loops, perhaps out of several. -/
def jumpStmt : Parse Unit :=
  node .jumpStmt do
    bump
    skip .int
    expectEnd

/-- A keyword, expressions, and the end of the statement. -/
def exprListStmt (call : Rules) (kind : NodeKind) : Parse Unit :=
  node kind do
    bump
    commaSeparated call.expr
    expectEnd

/-- The tag that prints expressions; it ends with its section. -/
def echoTag (call : Rules) : Parse Unit :=
  node .echoTag do
    bump
    commaSeparated call.expr
    skip .semiColon

/-- Variables taken from the outermost scope. -/
def globalStmt : Parse Unit :=
  node .globalStmt do
    bump
    commaSeparated (expect .varName)
    expectEnd

/-- A namespace, for the rest of the file or for a block. -/
def namespaceDecl (call : Rules) : Parse Unit :=
  node .namespaceDecl do
    bump
    skip .name
    if ← check .blockBegin then call .block else expectEnd

/-- A keyword that tells what kind of name is imported. -/
def useType : Parse Unit := do
  if ← checkAny [.functionKw, .constKw] then bump

/-- An imported name, perhaps with a group of names below it or another name for it. -/
def useClause (call : Rules) : Parse Unit :=
  node .useClause do
    useType
    expect .name
    if ← eat .backslash then
      node .groupUseList do
        expect .blockBegin
        itemsUntil .blockEnd (call .useClause)
        expect .blockEnd
    if ← eat .asKw then expectMemberName

/-- The import of names. -/
def useStmt (call : Rules) : Parse Unit :=
  node .useStmt do
    bump
    useType
    commaSeparated (call .useClause)
    expectEnd

/-- Constants outside types. -/
def constStmt (call : Rules) : Parse Unit :=
  node .constStmt do
    bump
    commaSeparated (constElement call)
    expectEnd

/-- A directive and its value. -/
def directive (call : Rules) : Parse Unit := do
  expect .name
  expect .assign
  call.expr

/-- Directives, for the rest of the file or for a block. -/
def declareStmt (call : Rules) : Parse Unit :=
  node .declareStmt do
    bump
    expect .parenBegin
    commaSeparated (directive call)
    expect .parenEnd
    if ← check .blockBegin then call .statement else expectEnd

/-! ### Telling statements apart -/

/-- The first symbol after attributes and modifiers, within the lookahead limit. -/
def pastModifiers : Nat → Nat → List TokenKind → Option TokenKind
  | 0, _, _ => none
  | _, _, [] => none
  | n + 1, depth, kind :: rest =>
    match kind with
    | .attributeStart | .arrayBegin => pastModifiers n (depth + 1) rest
    | .arrayEnd => pastModifiers n (depth - 1) rest
    | _ =>
      if depth == 0 && !kind.isModifier then some kind
      else pastModifiers n depth rest

/-- Is the first function ahead, within the lookahead limit, one without a name? -/
def closureAhead : Nat → List TokenKind → Bool
  | _, [] => false
  | n, kind :: rest =>
    if kind == .functionKw || kind == .fnKw then
      match rest with
      | .ampersand :: next => next.head? == some .parenBegin
      | next => next.head? == some .parenBegin
    else
      match n with
      | 0 => false
      | n + 1 => closureAhead n rest

/-- A statement by its first symbols; after a function within the lookahead limit, two more count.
-/
def plainStatement (call : Rules) : Parse Unit := do
  let kinds ← ahead (lookaheadLimit + 3)
  let next := (kinds.drop 1).head?
  match kinds.head? with
  | some .attributeStart =>
    match pastModifiers lookaheadLimit 0 kinds with
    | some .functionKw | some .fnKw =>
      if closureAhead lookaheadLimit kinds then exprStmt call else declaration call
    | _ => declaration call
  | some .functionKw =>
    if closureAhead lookaheadLimit kinds then exprStmt call else declaration call
  | some .abstractKw | some .finalKw | some .readonlyKw | some .classKw | some .interfaceKw
  | some .traitKw => declaration call
  | some .enumKw => if next == some .name then declaration call else exprStmt call
  | some .ifKw => ifStmt call
  | some .whileKw => node .whileStmt (conditional call)
  | some .doKw => doStmt call
  | some .forKw => forStmt call
  | some .foreachKw => foreachStmt call
  | some .switchKw => switchStmt call
  | some .tryKw => tryStmt call
  | some .returnKw => returnStmt call
  | some .breakKw | some .continueKw => jumpStmt
  | some .echoKw => exprListStmt call .echoStmt
  | some .openTagWithEcho => echoTag call
  | some .globalKw => globalStmt
  | some .staticKw => if next == some .varName then exprListStmt call .staticStmt else exprStmt call
  | some .namespaceKw =>
    if next == some .name || next == some .blockBegin then namespaceDecl call else exprStmt call
  | some .useKw => useStmt call
  | some .constKw => constStmt call
  | some .declareKw => declareStmt call
  | some .blockBegin => call .block
  | some .semiColon => node .emptyStmt bump
  | some .blockEnd =>
    report (.refused .unmatchedBrace)
    bump
  | _ => exprStmt call

/-- A statement of a list. -/
def statement (call : Rules) : Parse Unit := guarded (plainStatement call)

end CodeLayout.Grammar
