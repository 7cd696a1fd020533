import CodeLayout.Grammar.Declaration

/-!
# Expressions

An expression is a unary expression followed by infix operators, each of which takes over what was
read before it as its left operand, as long as it binds at least as strongly as required.
-/

namespace CodeLayout.Grammar

/-! ### Arguments and elements -/

/-- An argument, perhaps with a name. -/
def argument (call : Rules) : Parse Unit := do
  let named :=
    match ← peek with
    | some kind => kind == .name || kind.isKeyword
    | none => false
  if named && (← peekAt 1) == some .colon then
    node .namedArg do
      bump
      bump
      call.expr
  else call.expr

/-- Arguments in parentheses.  A lone ellipsis stands for the call itself. -/
def arguments (call : Rules) : Parse Unit :=
  node .argList do
    expect .parenBegin
    if (← check .ellipsis) && (← peekAt 1) == some .parenEnd then bump
    itemsUntil .parenEnd (argument call)
    expect .parenEnd

/-- An element of an array, perhaps with a key. -/
def arrayElement (call : Rules) : Parse Unit :=
  node .arrayElement do
    call.expr
    if ← eat .doubleArrow then call.expr

/-- The elements of an array up to the closing symbol; elements may be left out. -/
def arrayElements (call : Rules) (close : TokenKind) : Parse Unit :=
  repeating do
    if (← check close) || (← atEnd) then return false
    if ← eat .comma then return true
    arrayElement call
    eat .comma

/-- An expression in parentheses. -/
def parenthesised (call : Rules) : Parse Unit :=
  node .parenExpr do
    bump
    call.expr
    expect .parenEnd

/-! ### Primary expressions -/

/-- The creation of an object, of a named, computed or anonymous class. -/
def newExpr (call : Rules) : Parse Unit :=
  node .newExpr do
    bump
    if ← check .classKw then
      node .anonClass do
        bump
        if ← check .parenBegin then call .arguments
        inheritance
        classBody call
    else
      match ← peek with
      | some .name | some .staticKw | some .varName => bump
      | some .parenBegin => parenthesised call
      | _ => expect .name
      if ← check .parenBegin then call .arguments

/-- The conditions of an arm, up to its arrow. -/
def armConditions (call : Rules) : Parse Unit := do
  call.expr
  repeating do
    if ← eat .comma then
      if ← check .doubleArrow then return false
      call.expr
      return true
    return false

/-- An arm of a match. -/
def matchArm (call : Rules) : Parse Unit :=
  node .matchArm do
    if !(← eat .defaultKw) then armConditions call
    expect .doubleArrow
    call.expr

/-- A match and its arms. -/
def matchExpr (call : Rules) : Parse Unit :=
  node .matchExpr do
    bump
    call.condition
    expect .blockBegin
    itemsUntil .blockEnd (matchArm call)
    expect .blockEnd

/-- The variables that a closure takes along. -/
def closureUse : Parse Unit :=
  node .closureUse do
    bump
    expect .parenBegin
    itemsUntil .parenEnd do
      skip .ampersand
      expect .varName
    expect .parenEnd

/-- A closure with a block, or with an expression after an arrow. -/
def closure (call : Rules) (since : Nat) : Parse Unit := do
  skip .staticKw
  if ← check .fnKw then
    wrap since .arrowFnExpr do
      bump
      skip .ampersand
      paramList call
      returnType call
      expect .doubleArrow
      call.atLeast .ternary
  else
    wrap since .closureExpr do
      expect .functionKw
      skip .ampersand
      paramList call
      if ← check .useKw then closureUse
      returnType call
      call .block

/-- A name that is computed, after a dollar sign. -/
def dynamicName (call : Rules) : Parse Unit :=
  node .dynamicName do
    bump
    if ← eat .blockBegin then
      call.expr
      expect .blockEnd
    else call .primary

/-- A reserved word, which is a name only before `::` or `(`, or a symbol that starts no expression.
Symbols that end an expression stay for the construct around it. -/
def reservedPrimary (kind : TokenKind) : Parse Unit := do
  let next ← peekAt 1
  if kind.isKeyword && (next == some .doubleColon || next == some .parenBegin) then bump
  else
    unexpected .expression
    match kind with
    | .semiColon | .parenEnd | .arrayEnd | .blockEnd | .comma => return ()
    | _ => bump

/-- A primary expression. -/
def primary (call : Rules) : Parse Unit := do
  match ← peek with
  | none => unexpected .expression
  | some kind =>
    let next ← peekAt 1
    match kind with
    | .varName | .name | .int | .float | .str => bump
    | .dollar => dynamicName call
    | .parenBegin => parenthesised call
    | .arrayBegin =>
      node .arrayLiteral do
        bump
        arrayElements call .arrayEnd
        expect .arrayEnd
    | .listKw =>
      node .listExpr do
        bump
        expect .parenBegin
        arrayElements call .parenEnd
        expect .parenEnd
    | .newKw => newExpr call
    | .matchKw => matchExpr call
    | .functionKw | .fnKw | .attributeStart =>
      let since ← marker
      attributeGroups call
      closure call since
    | .arrayKw =>
      if next == some .parenBegin then
        node .arrayLiteral do
          bump
          bump
          arrayElements call .parenEnd
          expect .parenEnd
      else reservedPrimary kind
    | .staticKw =>
      if next == some .functionKw || next == some .fnKw then closure call (← marker)
      else reservedPrimary kind
    | _ => reservedPrimary kind

/-! ### Postfix operators -/

/-- Do the symbols after a brace close it right before an argument list? -/
def callAfterBraces : Nat → List TokenKind → Bool
  | _, [] => false
  | depth, .blockBegin :: rest => callAfterBraces (depth + 1) rest
  | depth, .blockEnd :: rest =>
    if depth ≤ 1 then rest.head? == some .parenBegin else callAfterBraces (depth - 1) rest
  | depth, _ :: rest => callAfterBraces depth rest

/-- Is the member after the access sign ahead followed by an argument list?  A member in braces may
be of any length. -/
def callAhead : Parse Bool := do
  if (← peekAt 1) == some .blockBegin then
    return callAfterBraces 1 ((← ahead (← read).symbols.size).drop 2)
  return (← peekAt 2) == some .parenBegin

/-- The member after an access sign. -/
def memberName (call : Rules) : Parse Unit := do
  match ← peek with
  | some .varName => bump
  | some .blockBegin =>
    node .dynamicName do
      bump
      call.expr
      expect .blockEnd
  | some .dollar => call .primary
  | _ => expectMemberName

/-- An access to a member, which is a call if arguments follow. -/
def memberAccess (call : Rules) (since : Nat) (plain called : NodeKind) : Parse Unit := do
  if ← callAhead then
    wrap since called do
      bump
      memberName call
      call .arguments
  else
    wrap since plain do
      bump
      memberName call

/-- One postfix operator, which takes over what was read since the marker; `false` if there is
none. -/
def postfixStep (call : Rules) (since : Nat) : Parse Bool := do
  match ← peek with
  | some .parenBegin =>
    wrap since .callExpr (call .arguments)
    return true
  | some .arrow | some .nullsafeArrow =>
    memberAccess call since .propertyFetch .methodCall
    return true
  | some .doubleColon =>
    memberAccess call since .staticAccess .staticCall
    return true
  | some .arrayBegin =>
    wrap since .indexExpr do
      bump
      if !(← check .arrayEnd) then call.expr
      expect .arrayEnd
    return true
  | some .increment | some .decrement =>
    wrap since .postfixExpr bump
    return true
  | _ => return false

/-- A primary expression with its postfix operators. -/
def operand (call : Rules) : Parse Unit := do
  let since ← marker
  call .primary
  repeating (postfixStep call since)

/-! ### Unary and infix operators -/

/-- A node for a keyword or sign and the expression after it. -/
def leading (call : Rules) (kind : NodeKind) (power : Power) : Parse Unit :=
  node kind do
    bump
    call.atLeast power

/-- A unary expression, or an assignment to an operand. -/
def unary (call : Rules) : Parse Unit := do
  match ← peek with
  | some .not => leading call .unaryExpr .instanceOf
  | some .minus | some .plus | some .tilde | some .atSign | some .ampersand
  | some .increment | some .decrement => leading call .unaryExpr .pow
  | some .ellipsis => leading call .unaryExpr .ternary
  | some .cast => leading call .castExpr .pow
  | some .cloneKw =>
    node .cloneExpr do
      bump
      call .unary
  | some .printKw => leading call .printExpr .ternary
  | some .throwKw => leading call .throwExpr .ternary
  | some .includeKw => leading call .includeExpr .ternary
  | some .yieldKw =>
    node .yieldExpr do
      bump
      if !(← atExpressionEnd) then
        call.atLeast .ternary
        if ← eat .doubleArrow then call.atLeast .ternary
  | _ =>
    let since ← marker
    operand call
    if ← checkAny [.assign, .compoundAssign] then
      wrap since .assignExpr do
        bump
        call.atLeast .ternary

/-- What follows the left operand of an infix operator. -/
def infixRest (call : Rules) (power : Power) : Parse Unit := do
  bump
  match power with
  | .ternary =>
    if !(← eat .colon) then
      call.atLeast .ternary
      expect .colon
    call.above .ternary
  | .coalesce | .pow => call.atLeast power
  | _ => call.above power

/-- The node of an infix operator. -/
def infixKind : Power → NodeKind
  | .ternary => .ternaryExpr
  | .coalesce => .coalesceExpr
  | .instanceOf => .instanceofExpr
  | _ => .binaryExpr

/-- One infix operator that binds at least as strongly as required; `false` if there is none. -/
def infixStep (call : Rules) (since least : Nat) : Parse Bool := do
  match (← peek).bind Power.ofInfix? with
  | some power =>
    if power.level < least then return false
    wrap since (infixKind power) (infixRest call power)
    return true
  | none => return false

/-- An expression whose operators bind at least as strongly as required. -/
def expression (call : Rules) (least : Nat) : Parse Unit := do
  let since ← marker
  call .unary
  repeating (infixStep call since least)

end CodeLayout.Grammar
