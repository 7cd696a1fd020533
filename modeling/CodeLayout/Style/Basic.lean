/-!
# Styles

A style is a record of options in sections.  The defaults of the fields are the built-in style.
Numbers are machine words, so those of a style are below `Word.limit`.
-/

namespace CodeLayout

/-- Where a left brace goes. -/
inductive BracePlacement where
  | sameLine | newLine | newLineIndented | preserveExisting
deriving DecidableEq, Repr, Inhabited

/-- When something is broken over several lines. -/
inductive Wrapping where
  | always | never | ifLong
deriving DecidableEq, Repr, Inhabited

namespace Style

/-- Widths in columns. -/
structure IndentOptions where
  indentSize : Nat := 4
  /-- The indent of a continued line. -/
  continuationSize : Nat := 8
  /-- The indent of the elements of a broken array. -/
  arrayItemSize : Nat := 4
  /-- The indent of code that does not follow markup. -/
  initialIndent : Nat := 0
  tabSize : Nat := 8
  expandTabs : Bool := true
  /-- The column at which a line counts as long. -/
  margin : Nat := 80
deriving DecidableEq, Repr, Inhabited

/-- Where the left brace of each construct goes. -/
structure BraceOptions where
  classDecl : BracePlacement := .sameLine
  anonymousClass : BracePlacement := .sameLine
  function : BracePlacement := .sameLine
  ifElse : BracePlacement := .sameLine
  forLoop : BracePlacement := .sameLine
  whileLoop : BracePlacement := .sameLine
  switch : BracePlacement := .sameLine
  matchArms : BracePlacement := .sameLine
  tryCatch : BracePlacement := .sameLine
  useTrait : BracePlacement := .sameLine
  groupUse : BracePlacement := .sameLine
  other : BracePlacement := .sameLine
deriving DecidableEq, Repr, Inhabited

/-- Least numbers of blank lines, and what is kept of blank lines in the source. -/
structure BlankLineOptions where
  beforeNamespace : Nat := 1
  afterNamespace : Nat := 1
  beforeUse : Nat := 1
  afterUse : Nat := 1
  betweenUseTypes : Nat := 0
  beforeUseTrait : Nat := 1
  afterUseTrait : Nat := 1
  beforeClass : Nat := 1
  afterClass : Nat := 1
  afterClassHeader : Nat := 1
  beforeClassEnd : Nat := 1
  beforeFields : Nat := 1
  afterFields : Nat := 1
  betweenFields : Nat := 1
  /-- Fields without a doc comment need no blank lines between them. -/
  groupFieldsWithoutDoc : Bool := true
  beforeFunction : Nat := 1
  afterFunction : Nat := 1
  beforeFunctionEnd : Nat := 0
  afterOpenPhpTag : Nat := 1
  afterOpenPhpTagInHtml : Nat := 0
  beforeClosePhpTag : Nat := 0
  /-- The greatest number of blank lines that are kept. -/
  maxPreserved : Nat := 1
  /-- Whether the file ends with a line break. -/
  eof : Bool := false
deriving DecidableEq, Repr, Inhabited

/-- Whether a space stands before, around, within or after something. -/
structure SpaceOptions where
  beforeWhile : Bool := true
  beforeElse : Bool := true
  beforeCatch : Bool := true
  beforeFinally : Bool := true
  beforeMethodDeclParen : Bool := false
  beforeMethodCallParen : Bool := false
  beforeIfParen : Bool := true
  beforeForParen : Bool := true
  beforeWhileParen : Bool := true
  beforeCatchParen : Bool := true
  beforeSwitchParen : Bool := true
  beforeMatchParen : Bool := true
  beforeArrayDeclParen : Bool := false
  beforeAnonymousFunctionParen : Bool := true
  beforeAnonymousClassParen : Bool := false
  beforeAttributeParen : Bool := false
  beforeDeclareParen : Bool := false
  beforeClassLeftBrace : Bool := true
  beforeFunctionLeftBrace : Bool := true
  beforeIfLeftBrace : Bool := true
  beforeElseLeftBrace : Bool := true
  beforeForLeftBrace : Bool := true
  beforeWhileLeftBrace : Bool := true
  beforeDoLeftBrace : Bool := true
  beforeSwitchLeftBrace : Bool := true
  beforeMatchLeftBrace : Bool := true
  beforeTryLeftBrace : Bool := true
  beforeCatchLeftBrace : Bool := true
  beforeFinallyLeftBrace : Bool := true
  beforeUseTraitLeftBrace : Bool := true
  beforeGroupUseLeftBrace : Bool := false
  beforeOtherLeftBrace : Bool := true
  aroundUnaryOps : Bool := false
  aroundBinaryOps : Bool := true
  aroundTernaryOps : Bool := true
  aroundCoalescingOps : Bool := true
  aroundStringConcatOps : Bool := true
  aroundKeyValueOps : Bool := true
  aroundAssignOps : Bool := true
  aroundScopeResolutionOps : Bool := false
  aroundObjectOps : Bool := false
  aroundNullsafeObjectOps : Bool := false
  aroundDeclareEqual : Bool := false
  aroundUnionTypeSeparator : Bool := false
  aroundIntersectionTypeSeparator : Bool := false
  aroundMultiCatchSeparator : Bool := true
  withinMethodDeclParens : Bool := false
  withinMethodCallParens : Bool := false
  withinIfParens : Bool := false
  withinForParens : Bool := false
  withinWhileParens : Bool := false
  withinSwitchParens : Bool := false
  withinMatchParens : Bool := false
  withinCatchParens : Bool := false
  withinDeclareParens : Bool := false
  withinOtherParens : Bool := false
  withinArrayDeclParens : Bool := false
  withinArrayBrackets : Bool := false
  withinAttributeBrackets : Bool := false
  withinAttributeDeclParens : Bool := false
  withinTypeCastParens : Bool := false
  withinDnfTypeParens : Bool := false
  withinDynamicNameBraces : Bool := false
  beforeComma : Bool := false
  afterComma : Bool := true
  beforeSemi : Bool := false
  afterSemi : Bool := true
  afterTypeCast : Bool := true
  afterShortPhpTag : Bool := true
  beforeClosePhpTag : Bool := true
deriving DecidableEq, Repr, Inhabited

/-- What starts a line of its own. -/
structure PlacementOptions where
  elseOnNewLine : Bool := false
  whileOnNewLine : Bool := false
  catchOnNewLine : Bool := false
  finallyOnNewLine : Bool := false
  newLineAfterModifiers : Bool := false
deriving DecidableEq, Repr, Inhabited

/-- What is broken over several lines, and on which side. -/
structure WrapOptions where
  extendsImplementsKeyword : Wrapping := .never
  extendsImplementsList : Wrapping := .never
  methodParams : Wrapping := .never
  methodCallArgs : Wrapping := .never
  chainedMethodCalls : Wrapping := .never
  arrayInit : Wrapping := .never
  forClauses : Wrapping := .never
  binaryOps : Wrapping := .never
  ternaryOps : Wrapping := .never
  coalescingOps : Wrapping := .never
  assignmentOps : Wrapping := .never
  groupUseList : Wrapping := .never
  ifStatement : Wrapping := .always
  forStatement : Wrapping := .always
  whileStatement : Wrapping := .always
  doStatement : Wrapping := .always
  methodParamsAfterLeftParen : Bool := false
  methodParamsRightParen : Bool := false
  methodCallArgsAfterLeftParen : Bool := false
  methodCallArgsRightParen : Bool := false
  methodParamsKeepParenAndBraceOnTheSameLine : Bool := false
  statementsOnTheSameLine : Bool := true
  blockBraces : Bool := true
  groupUseBraces : Bool := true
  afterBinaryOps : Bool := false
  afterAssignOps : Bool := false
  afterTernaryOps : Bool := false
  /-- Whether line breaks in what is never broken are removed as well. -/
  neverKeepLines : Bool := false
deriving DecidableEq, Repr, Inhabited

/-- What is lined up with what. -/
structure AlignOptions where
  multilineMethodParams : Bool := false
  multilineCallArgs : Bool := false
  multilineImplements : Bool := false
  multilineArrayInit : Bool := false
  multilineFor : Bool := false
  /-- Accepted, without effect. -/
  multilineTernary : Bool := false
  /-- Accepted, without effect. -/
  multilineBinary : Bool := false
  /-- Accepted, without effect. -/
  multilineChained : Bool := false
  groupAssignments : Bool := false
  groupArrayInit : Bool := false
  groupMatchArms : Bool := false
deriving DecidableEq, Repr, Inhabited

end Style

/-- A style. -/
structure Style where
  indent : Style.IndentOptions := {}
  braces : Style.BraceOptions := {}
  blankLines : Style.BlankLineOptions := {}
  spaces : Style.SpaceOptions := {}
  placement : Style.PlacementOptions := {}
  wrap : Style.WrapOptions := {}
  align : Style.AlignOptions := {}
deriving DecidableEq, Repr, Inhabited

end CodeLayout
