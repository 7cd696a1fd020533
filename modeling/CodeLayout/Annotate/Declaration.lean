import CodeLayout.Annotate.Statement

/-!
# Declarations

Functions, classes and their members, parameters, attributes and types.
-/

namespace CodeLayout.Annotate

/-! ### What stands in front of a declaration -/

/-- Lay out a child that is an attribute group or a modifier, given the children after it, and
answer whether it was one.  A line may be broken after the last modifier of a member. -/
def declarationFront (visit : Visit) (kind : NodeKind) (member : Bool) (c : Tree)
    (rest : List Tree) : Emit Bool := do
  match c with
  | .node k _ _ =>
    if k == .attributeGroup then
      visit kind c
      role .afterAttribute
      return true
    else return false
  | .leaf i _ =>
    if !(← kindAt i).isModifier then return false
    leaf i
    let more ← match rest with
      | next :: _ => pure ((← leafKind? next).any TokenKind.isModifier)
      | [] => pure false
    role (if member && !more then .afterModifiers else .afterKeyword)
    return true

/-! ### Types -/

/-- A part of a type: a name, a nested type or a parenthesis. -/
def typePart (visit : Visit) (kind : NodeKind) (c : Tree) : Emit Unit := do
  match c with
  | .leaf i _ =>
    match ← kindAt i with
    | .parenBegin => leafThen i (.afterLeftParen .dnfType)
    | .parenEnd => closeParen .dnfType i
    | _ => leaf i
  | .node .. => visit kind c

/-- A union or an intersection. -/
def typeList (visit : Visit) (kind : NodeKind) (children : List Tree) : Emit Unit :=
  children.forM fun c => do
    match ← leafKind? c, c.leafIndex? with
    | some .pipe, some i => op i .union
    | some .ampersand, some i => op i .intersection
    | _, _ => typePart visit kind c

/-- A type after a colon. -/
def colonType (visit : Visit) (kind : NodeKind) (children : List Tree) : Emit Unit :=
  children.forM fun c => do
    match ← leafKind? c, c.leafIndex? with
    | some .colon, some i => between .beforeColon i .afterColon
    | _, _ => typePart visit kind c

/-! ### Functions -/

/-- The parts of a function; `brace` is the role before the brace of its body. -/
def functionParts (visit : Visit) (kind : NodeKind) (brace : Role) : List Tree → Emit Unit
  | [] => return ()
  | c :: rest => do
    if !(← declarationFront visit kind (kind == .methodDecl) c rest) then
      match c with
      | .node .block _ _ => blockOf visit .function (some brace) c
      | .node .. => visit kind c
      | .leaf i _ =>
        match ← kindAt i with
        | .functionKw => leafThen i .afterKeyword
        | .semiColon => semi i
        | _ => leaf i
    functionParts visit kind brace rest

/-- A function or method.  The brace may stay behind parameters over several lines. -/
def functionDecl (visit : Visit) (kind : NodeKind) (t : Tree) : Emit Unit := do
  let broken ← match t.findChild? .paramList with
    | some params => isMultiline params
    | none => pure false
  let kept := broken && (← read).style.wrap.methodParamsKeepParenAndBraceOnTheSameLine
  let brace : Role := if kept then .keptLeftBrace .function else .beforeLeftBrace .function
  functionParts visit kind brace t.children

/-- The parameters of a function. -/
def paramList (visit : Visit) (parent kind : NodeKind) (children : List Tree) : Emit Unit := do
  let paren : ParenKind := match parent with
    | .closureExpr | .arrowFnExpr => .anonymousFunction
    | _ => .methodDecl
  list visit kind children (.of (← read).style .params paren) none

/-- The sign with which the name of a parameter starts. -/
def startsParamName : TokenKind → Bool
  | .ampersand | .ellipsis | .varName => true
  | _ => false

/-- The children of a declaration with a type, of which the first `toName` stand before its name:
`own` lays out the leaves that it answers for, the others before the name are parts of the type. -/
def typedParts (visit : Visit) (kind : NodeKind) (member : Bool) (own : Nat → Emit Bool) :
    Nat → List Tree → Emit Unit
  | _, [] => return ()
  | toName, c :: rest => do
    if !(← declarationFront visit kind member c rest) then
      let done ← match c.leafIndex? with
        | some i => own i
        | none => pure false
      if !done then
        if toName > 0 then
          typePart visit kind c
          if toName == 1 then role .afterType
        else visit kind c
    typedParts visit kind member own (toName - 1) rest

/-- Lay out the sign before a default value. -/
def paramSign (i : Nat) : Emit Bool := do
  if (← kindAt i) == .assign then
    op i .assign
    return true
  return false

/-- A parameter. -/
def param (visit : Visit) (kind : NodeKind) (children : List Tree) : Emit Unit := do
  let toName := match ← findSign? startsParamName children with
    | some sign => sign.1
    | none => 0
  typedParts visit kind false paramSign toName children

/-! ### Classes and their members -/

/-- The parts of a class, interface, trait or enumeration. -/
def typeDecl (visit : Visit) (kind : NodeKind) : List Tree → Emit Unit
  | [] => return ()
  | c :: rest => do
    if !(← declarationFront visit kind false c rest) then
      match c with
      | .leaf i _ => if (← kindAt i).isKeyword then leafThen i .afterKeyword else leaf i
      | .node .. => visit kind c
    typeDecl visit kind rest

/-- The parts of a clause that names other classes. -/
def inheritanceParts (visit : Visit) (kind : NodeKind) (front : Role) : List Tree → Emit Unit
  | [] => return ()
  | .leaf i _ :: rest => do
    match ← kindAt i with
    | .extendsKw | .implementsKw =>
      between front i .afterKeyword
      mark .anchor
    | .comma =>
      comma i
      if !rest.isEmpty then role (.inList .implements)
    | _ => leaf i
    inheritanceParts visit kind front rest
  | c :: rest => do
    visit kind c
    inheritanceParts visit kind front rest

/-- A clause that names other classes, indented where it is broken. -/
def inheritanceClause (visit : Visit) (kind : NodeKind) (children : List Tree) : Emit Unit := do
  let width := (← read).style.indent.continuationSize
  indent width
  inheritanceParts visit kind (if kind == .extendsClause then .beforeExtends else .beforeImplements)
    children
  mark .anchorEnd
  dedent width

/-- The members of a class. -/
def classBody (visit : Visit) (parent kind : NodeKind) (children : List Tree) : Emit Unit :=
  let construct : Construct := if parent == .anonClass then .anonymousClass else .classDecl
  braced visit kind children construct (some (.beforeLeftBrace construct)) .classBody

/-- Lay out a leaf of a field that is not a part of its type. -/
def fieldSign (i : Nat) : Emit Bool := do
  match ← kindAt i with
  | .constKw =>
    leafThen i .afterKeyword
    return true
  | .comma =>
    comma i
    return true
  | .semiColon =>
    semi i
    return true
  | _ => return false

/-- Properties or constants of a class. -/
def fieldDecl (visit : Visit) (kind : NodeKind) (children : List Tree) : Emit Unit :=
  let isElement (c : Tree) : Bool := c.isKind .propertyElement || c.isKind .constElement
  let toName := if children.any isElement then children.findIdx isElement else 0
  typedParts visit kind true fieldSign toName children

/-- The traits that a class takes in. -/
def traitUse (visit : Visit) (kind : NodeKind) (children : List Tree) : Emit Unit :=
  children.forM fun c =>
    match c with
    | .leaf i _ => walkLeaf i
    | .node .. => visit kind c

/-- The rules among traits, each on a line of its own; `first` for the opening brace. -/
def traitUseParts (visit : Visit) (kind : NodeKind) (size : Nat) (first : Bool) :
    List Tree → Emit Unit
  | [] => return ()
  | .leaf i _ :: rest => do
    match ← kindAt i, first, rest with
    | .blockBegin, true, _ =>
      thenLeaf (.beforeLeftBrace .useTrait) i
      indent size
      role (.afterLeftBrace .useTrait)
    | .blockEnd, _, [] =>
      dedentBefore size
      thenLeaf (.beforeRightBrace .useTrait) i
    | .semiColon, _, _ =>
      semi i
      if rest.length > 1 then role .beforeStatement
    | .doubleColon, _, _ => op i .scope
    | _, _, _ => leaf i
    traitUseParts visit kind size false rest
  | c :: rest => do
    visit kind c
    traitUseParts visit kind size false rest

/-- The rules among traits. -/
def traitUseBody (visit : Visit) (kind : NodeKind) (children : List Tree) : Emit Unit := do
  traitUseParts visit kind (← read).style.indent.indentSize true children

/-- A group of attributes. -/
def attributeGroup (visit : Visit) (kind : NodeKind) (children : List Tree) : Emit Unit := do
  list visit kind children (ListShape.of (← read).style .plain .attributeGroup).hugging none

end CodeLayout.Annotate
