import CodeLayout.Grammar.Rule

/-!
# Declarations

Attributes, types, parameters, functions, and the types with their members.
-/

namespace CodeLayout.Grammar

/-! ### Attributes and modifiers -/

/-- An attribute with its arguments. -/
def attributeItem (call : Rules) : Parse Unit :=
  node .attributeItem do
    expect .name
    if ← check .parenBegin then call .arguments

/-- Groups of attributes, one after the other. -/
def attributeGroups (call : Rules) : Parse Unit :=
  repeating do
    if ← check .attributeStart then
      node .attributeGroup do
        bump
        itemsUntil .arrayEnd (attributeItem call)
        expect .arrayEnd
      return true
    return false

/-- Is the next symbol a modifier? -/
def checkModifier : Parse Bool := return ((← peek).map TokenKind.isModifier).getD false

/-- Modifiers, one after the other. -/
def modifiers : Parse Unit :=
  repeating do
    if ← checkModifier then
      bump
      return true
    return false

/-! ### Types -/

/-- Does a type start here? -/
def atTypeStart : Parse Bool := do
  match ← peek with
  | some .name | some .arrayKw | some .staticKw | some .question => return true
  | some .parenBegin => return (← peekAt 1) == some .name
  | _ => return false

/-- A single type. -/
def typeAtom : Parse Unit := expectAny [.name, .arrayKw, .staticKw]

/-- Does the ampersand ahead continue a type?  Before a variable it marks a reference. -/
def intersectionAhead : Parse Bool := do
  if ← check .ampersand then
    match ← peekAt 1 with
    | some .name | some .staticKw | some .arrayKw => return true
    | _ => return false
  return false

/-- Types joined by ampersands, or such types in parentheses. -/
def intersection (call : Rules) : Parse Unit := do
  if ← eat .parenBegin then
    call .intersection
    expect .parenEnd
  else
    let since ← marker
    typeAtom
    if ← intersectionAhead then
      wrap since .intersectionType <| repeating do
        if ← intersectionAhead then
          bump
          typeAtom
          return true
        return false

/-- A type: one that may be null, or intersections joined by bars. -/
def type (call : Rules) : Parse Unit := do
  if ← check .question then
    node .nullableType do
      bump
      typeAtom
  else
    let since ← marker
    call .intersection
    if ← check .pipe then
      wrap since .unionType (whileEating .pipe (call .intersection))

/-- A colon and a type, as a node of the kind, if there is a colon. -/
def colonType (call : Rules) (kind : NodeKind) : Parse Unit := do
  if ← check .colon then
    node kind do
      bump
      type call

/-! ### Parameters and functions -/

/-- A parameter. -/
def param (call : Rules) : Parse Unit :=
  node .param do
    attributeGroups call
    modifiers
    if ← atTypeStart then type call
    skip .ampersand
    skip .ellipsis
    expect .varName
    if ← eat .assign then call.expr

/-- The parameters in parentheses. -/
def paramList (call : Rules) : Parse Unit :=
  node .paramList do
    expect .parenBegin
    itemsUntil .parenEnd (param call)
    expect .parenEnd

/-- The type after a parameter list. -/
def returnType (call : Rules) : Parse Unit := colonType call .returnType

/-- A function from its keyword on; the body may be missing. -/
def functionRest (call : Rules) : Parse Unit := do
  bump
  skip .ampersand
  expectMemberName
  paramList call
  returnType call
  if ← check .blockBegin then call .block else expectEnd

/-! ### Types with members -/

/-- A clause of names after a keyword, if the keyword is there. -/
def inheritanceClause (keyword : TokenKind) (kind : NodeKind) : Parse Unit := do
  if ← check keyword then
    node kind do
      bump
      commaSeparated (expect .name)

/-- What a type extends and implements. -/
def inheritance : Parse Unit := do
  inheritanceClause .extendsKw .extendsClause
  inheritanceClause .implementsKw .implementsClause

/-- A constant and its value. -/
def constElement (call : Rules) : Parse Unit :=
  node .constElement do
    expectMemberName
    expect .assign
    call.expr

/-- A property and its value. -/
def propertyElement (call : Rules) : Parse Unit :=
  node .propertyElement do
    expect .varName
    if ← eat .assign then call.expr

/-- Properties from their type on. -/
def propertyRest (call : Rules) (since : Nat) : Parse Unit :=
  wrap since .propertyDecl do
    if !(← check .varName) then type call
    commaSeparated (propertyElement call)
    expectEnd

/-- Pass everything up to the brace that closes the one just passed. -/
def skipBraces : Nat → Nat → Parse Unit
  | 0, _ => cutOff
  | n + 1, depth => do
    match ← peek with
    | none => return ()
    | some .blockBegin =>
      bump
      skipBraces n (depth + 1)
    | some .blockEnd =>
      if depth ≤ 1 then return ()
      bump
      skipBraces n (depth - 1)
    | some _ =>
      bump
      skipBraces n depth

/-- The use of traits inside a type, from its keyword on. -/
def traitUseRest : Parse Unit := do
  bump
  commaSeparated (expect .name)
  if ← check .blockBegin then
    node .traitUseBody do
      bump
      skipBraces ((← read).symbols.size + 1) 1
      expect .blockEnd
  else expectEnd

/-- A member that starts with modifiers, or with none of its own keywords. -/
def modifiedMember (call : Rules) (since : Nat) : Parse Unit := do
  let modified ← checkModifier
  modifiers
  match ← peek with
  | some .constKw =>
    wrap since .classConstDecl do
      bump
      if (← atTypeStart) && (← peekAt 1) != some .assign then type call
      commaSeparated (constElement call)
      expectEnd
  | some .functionKw => wrap since .methodDecl (functionRest call)
  | some .varName => propertyRest call since
  | _ =>
    if modified && (← atTypeStart) then propertyRest call since
    else unexpected .classMember

/-- A member of a type. -/
def classMember (call : Rules) : Parse Unit := do
  let since ← marker
  attributeGroups call
  match ← peek with
  | some .useKw => wrap since .traitUse traitUseRest
  | some .caseKw =>
    wrap since .enumCase do
      bump
      expectMemberName
      if ← eat .assign then call.expr
      expectEnd
  | _ => modifiedMember call since

/-- The members of a type in braces. -/
def classBody (call : Rules) : Parse Unit :=
  node .classBody do
    expect .blockBegin
    repeating do
      if (← check .blockEnd) || (← atEnd) then return false
      guarded (classMember call)
      return true
    expect .blockEnd

/-- A type with members, from its keyword on. -/
def typeDeclRest (call : Rules) (kind : NodeKind) : Parse Unit := do
  bump
  expect .name
  if kind == .enumDecl then colonType call .enumBackingType
  inheritance
  classBody call

/-- The kind of declaration that a keyword starts. -/
def declarationKind? : TokenKind → Option NodeKind
  | .functionKw => some .functionDecl
  | .classKw => some .classDecl
  | .interfaceKw => some .interfaceDecl
  | .traitKw => some .traitDecl
  | .enumKw => some .enumDecl
  | _ => none

/-- A declaration of a function or type, with its attributes and modifiers. -/
def declaration (call : Rules) : Parse Unit := do
  let since ← marker
  attributeGroups call
  modifiers
  match (← peek).bind declarationKind? with
  | some .functionDecl => wrap since .functionDecl (functionRest call)
  | some kind => wrap since kind (typeDeclRest call kind)
  | none => unexpected .declaration

end CodeLayout.Grammar
