import CodeLayout.Stream.Role
import CodeLayout.Style.Basic
import CodeLayout.Text.Blank

/-!
# What a style says

Each function looks up the option that governs a construct, a pair of parentheses, an operator or a
list.  `Style.visualWidth` measures text on a screen where tabs reach the next tab stop, and
`Style.indentString` writes an indent of a given width.
-/

namespace CodeLayout.Style

/-- Where the left brace of the construct goes. -/
def bracePlacement (s : Style) : Construct → BracePlacement
  | .classDecl => s.braces.classDecl
  | .anonymousClass => s.braces.anonymousClass
  | .function => s.braces.function
  | .ifBranch | .elseBranch => s.braces.ifElse
  | .forLoop => s.braces.forLoop
  | .whileLoop | .doLoop => s.braces.whileLoop
  | .switch => s.braces.switch
  | .matchArms => s.braces.matchArms
  | .tryBlock | .catchBlock | .finallyBlock => s.braces.tryCatch
  | .useTrait => s.braces.useTrait
  | .groupUse => s.braces.groupUse
  | .other => s.braces.other

/-- Does a space stand before the left brace of the construct on the same line? -/
def spaceBeforeLeftBrace (s : Style) : Construct → Bool
  | .classDecl | .anonymousClass => s.spaces.beforeClassLeftBrace
  | .function => s.spaces.beforeFunctionLeftBrace
  | .ifBranch => s.spaces.beforeIfLeftBrace
  | .elseBranch => s.spaces.beforeElseLeftBrace
  | .forLoop => s.spaces.beforeForLeftBrace
  | .whileLoop => s.spaces.beforeWhileLeftBrace
  | .doLoop => s.spaces.beforeDoLeftBrace
  | .switch => s.spaces.beforeSwitchLeftBrace
  | .matchArms => s.spaces.beforeMatchLeftBrace
  | .tryBlock => s.spaces.beforeTryLeftBrace
  | .catchBlock => s.spaces.beforeCatchLeftBrace
  | .finallyBlock => s.spaces.beforeFinallyLeftBrace
  | .useTrait => s.spaces.beforeUseTraitLeftBrace
  | .groupUse => s.spaces.beforeGroupUseLeftBrace
  | .other => s.spaces.beforeOtherLeftBrace

/-- Does a space stand before the opening sign of the pair? -/
def spaceBeforeParen (s : Style) : ParenKind → Bool
  | .methodDecl => s.spaces.beforeMethodDeclParen
  | .methodCall => s.spaces.beforeMethodCallParen
  | .ifCondition => s.spaces.beforeIfParen
  | .forHead => s.spaces.beforeForParen
  | .whileCondition => s.spaces.beforeWhileParen
  | .switchSubject => s.spaces.beforeSwitchParen
  | .matchSubject => s.spaces.beforeMatchParen
  | .catchTypes => s.spaces.beforeCatchParen
  | .declareHead => s.spaces.beforeDeclareParen
  | .anonymousFunction => s.spaces.beforeAnonymousFunctionParen
  | .anonymousClass => s.spaces.beforeAnonymousClassParen
  | .arrayDecl => s.spaces.beforeArrayDeclParen
  | .attributeDecl => s.spaces.beforeAttributeParen
  | .arrayBrackets | .attributeGroup | .dnfType | .dynamicName | .typeCast | .other => false

/-- Do spaces stand inside the pair? -/
def spaceWithin (s : Style) : ParenKind → Bool
  | .methodDecl | .anonymousFunction => s.spaces.withinMethodDeclParens
  | .methodCall | .anonymousClass => s.spaces.withinMethodCallParens
  | .ifCondition => s.spaces.withinIfParens
  | .forHead => s.spaces.withinForParens
  | .whileCondition => s.spaces.withinWhileParens
  | .switchSubject => s.spaces.withinSwitchParens
  | .matchSubject => s.spaces.withinMatchParens
  | .catchTypes => s.spaces.withinCatchParens
  | .declareHead => s.spaces.withinDeclareParens
  | .arrayDecl => s.spaces.withinArrayDeclParens
  | .arrayBrackets => s.spaces.withinArrayBrackets
  | .attributeGroup => s.spaces.withinAttributeBrackets
  | .attributeDecl => s.spaces.withinAttributeDeclParens
  | .dnfType => s.spaces.withinDnfTypeParens
  | .dynamicName => s.spaces.withinDynamicNameBraces
  | .typeCast => s.spaces.withinTypeCastParens
  | .other => s.spaces.withinOtherParens

/-- Do spaces stand around the operator?  Words need them in any style. -/
def spaceAround (s : Style) : OpKind → Bool
  | .unary => s.spaces.aroundUnaryOps
  | .binary => s.spaces.aroundBinaryOps
  | .concat => s.spaces.aroundStringConcatOps
  | .assign => s.spaces.aroundAssignOps
  | .keyValue => s.spaces.aroundKeyValueOps
  | .ternary => s.spaces.aroundTernaryOps
  | .coalescing => s.spaces.aroundCoalescingOps
  | .textual => true
  | .scope => s.spaces.aroundScopeResolutionOps
  | .object => s.spaces.aroundObjectOps
  | .nullsafe => s.spaces.aroundNullsafeObjectOps
  | .declareEqual => s.spaces.aroundDeclareEqual
  | .union => s.spaces.aroundUnionTypeSeparator
  | .intersection => s.spaces.aroundIntersectionTypeSeparator
  | .multiCatch => s.spaces.aroundMultiCatchSeparator

/-- When a line is broken at the operator; none if it never is. -/
def opWrap? (s : Style) : OpKind → Option Wrapping
  | .binary | .concat => some s.wrap.binaryOps
  | .assign => some s.wrap.assignmentOps
  | .ternary => some s.wrap.ternaryOps
  | .coalescing => some s.wrap.coalescingOps
  | _ => none

/-- Is a line broken after the operator rather than before it? -/
def wrapsAfter (s : Style) : OpKind → Bool
  | .assign => s.wrap.afterAssignOps
  | .ternary => s.wrap.afterTernaryOps
  | _ => s.wrap.afterBinaryOps

/-- When the list is broken. -/
def listWrap (s : Style) : ListKind → Wrapping
  | .params => s.wrap.methodParams
  | .args => s.wrap.methodCallArgs
  | .array => s.wrap.arrayInit
  | .groupUse => s.wrap.groupUseList
  | .implements => s.wrap.extendsImplementsList
  | .forHead => s.wrap.forClauses
  | .plain => .never

/-- Do the elements of the list line up with its first one? -/
def listAligned (s : Style) : ListKind → Bool
  | .params => s.align.multilineMethodParams
  | .args => s.align.multilineCallArgs
  | .array => s.align.multilineArrayInit
  | .implements => s.align.multilineImplements
  | .forHead => s.align.multilineFor
  | .groupUse | .plain => false

/-- When a body without braces starts a line of its own. -/
def bodyWrap (s : Style) : Construct → Wrapping
  | .forLoop => s.wrap.forStatement
  | .whileLoop => s.wrap.whileStatement
  | .doLoop => s.wrap.doStatement
  | _ => s.wrap.ifStatement

/-- Does the keyword start a line of its own? -/
def keywordOnNewLine (s : Style) : ContinuationKeyword → Bool
  | .elseWord => s.placement.elseOnNewLine
  | .whileWord => s.placement.whileOnNewLine
  | .catchWord => s.placement.catchOnNewLine
  | .finallyWord => s.placement.finallyOnNewLine

/-- Does a space stand before the keyword on the same line? -/
def spaceBeforeKeyword (s : Style) : ContinuationKeyword → Bool
  | .elseWord => s.spaces.beforeElse
  | .whileWord => s.spaces.beforeWhile
  | .catchWord => s.spaces.beforeCatch
  | .finallyWord => s.spaces.beforeFinally

/-- The least number of blank lines that a policy asks for. -/
def blankLineMinimum (s : Style) : BlankPolicy → Nat
  | .beforeNamespace => s.blankLines.beforeNamespace
  | .afterNamespace => s.blankLines.afterNamespace
  | .beforeUse => s.blankLines.beforeUse
  | .afterUse => s.blankLines.afterUse
  | .betweenUseTypes => s.blankLines.betweenUseTypes
  | .beforeUseTrait => s.blankLines.beforeUseTrait
  | .afterUseTrait => s.blankLines.afterUseTrait
  | .beforeClass => s.blankLines.beforeClass
  | .afterClass => s.blankLines.afterClass
  | .beforeFields => s.blankLines.beforeFields
  | .afterFields => s.blankLines.afterFields
  | .betweenFields => s.blankLines.betweenFields
  | .beforeFunction => s.blankLines.beforeFunction
  | .afterFunction => s.blankLines.afterFunction

/-! ### Widths -/

/-- Does the style indent with spaces alone? -/
def indentsWithSpaces (s : Style) : Bool := s.indent.expandTabs || s.indent.tabSize == 0

/-- The text of an indent of the given width: spaces, or as many tabs as fit and spaces for the
rest. -/
def indentString (s : Style) (width : Nat) : String :=
  if s.indentsWithSpaces then Text.repeated ' ' width
  else Text.repeated '\t' (width / s.indent.tabSize) ++ Text.repeated ' ' (width % s.indent.tabSize)

/-- The column after a character: a tab reaches the next tab stop, any other character takes one
column. -/
def advance (s : Style) (column : Nat) (c : Char) : Nat :=
  let tab := max s.indent.tabSize 1
  if c == '\t' then column + tab - column % tab else column + 1

/-- The column after a text that starts at the given column. -/
def columnAfter (s : Style) (column : Nat) (text : String) : Nat :=
  text.toList.foldl s.advance column

/-- The number of columns that a text takes if it starts at the given column. -/
def visualWidth (s : Style) (text : String) (column : Nat) : Nat :=
  s.columnAfter column text - column

end CodeLayout.Style
