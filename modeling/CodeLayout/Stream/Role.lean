/-!
# Roles of gaps

Between two pieces of text lies a gap.  Roles say what a gap is for: after a comma, before the brace
of a loop body, inside a list.  How wide a gap becomes is decided later, from its roles and the
style.
-/

namespace CodeLayout

/-- A construct that owns a pair of braces. -/
inductive Construct where
  | classDecl | anonymousClass | function | ifBranch | elseBranch | forLoop | whileLoop
  | doLoop | switch | matchArms | tryBlock | catchBlock | finallyBlock | useTrait | groupUse
  | other
deriving DecidableEq, Repr, Inhabited

namespace Construct

/-- The name of the construct. -/
def label : Construct → String
  | classDecl => "Class"
  | anonymousClass => "AnonymousClass"
  | function => "Function"
  | ifBranch => "If"
  | elseBranch => "Else"
  | forLoop => "For"
  | whileLoop => "While"
  | doLoop => "Do"
  | switch => "Switch"
  | matchArms => "Match"
  | tryBlock => "Try"
  | catchBlock => "Catch"
  | finallyBlock => "Finally"
  | useTrait => "UseTrait"
  | groupUse => "GroupUse"
  | other => "Other"

/-- All of them, in the order of their declaration. -/
def all : List Construct := [
  .classDecl, .anonymousClass, .function, .ifBranch, .elseBranch, .forLoop, .whileLoop, .doLoop,
  .switch, .matchArms, .tryBlock, .catchBlock, .finallyBlock, .useTrait, .groupUse, .other]

end Construct

/-- A pair of parentheses or brackets with spacing options of its own. -/
inductive ParenKind where
  | methodDecl | methodCall | ifCondition | forHead | whileCondition | switchSubject
  | matchSubject | catchTypes | declareHead | anonymousFunction | anonymousClass | arrayDecl
  | arrayBrackets | attributeGroup | attributeDecl | dnfType | dynamicName | typeCast | other
deriving DecidableEq, Repr, Inhabited

namespace ParenKind

/-- The name of the pair. -/
def label : ParenKind → String
  | methodDecl => "MethodDecl"
  | methodCall => "MethodCall"
  | ifCondition => "If"
  | forHead => "For"
  | whileCondition => "While"
  | switchSubject => "Switch"
  | matchSubject => "Match"
  | catchTypes => "Catch"
  | declareHead => "Declare"
  | anonymousFunction => "AnonymousFunction"
  | anonymousClass => "AnonymousClass"
  | arrayDecl => "ArrayDecl"
  | arrayBrackets => "ArrayBrackets"
  | attributeGroup => "Attribute"
  | attributeDecl => "AttributeDecl"
  | dnfType => "DnfType"
  | dynamicName => "DynamicName"
  | typeCast => "TypeCast"
  | other => "Other"

/-- All of them, in the order of their declaration. -/
def all : List ParenKind := [
  .methodDecl, .methodCall, .ifCondition, .forHead, .whileCondition, .switchSubject,
  .matchSubject, .catchTypes, .declareHead, .anonymousFunction, .anonymousClass, .arrayDecl,
  .arrayBrackets, .attributeGroup, .attributeDecl, .dnfType, .dynamicName, .typeCast, .other]

end ParenKind

/-- An operator as the style sees it. -/
inductive OpKind where
  | unary | binary | concat | assign | keyValue | ternary | coalescing | textual | scope
  | object | nullsafe | declareEqual | union | intersection | multiCatch
deriving DecidableEq, Repr, Inhabited

namespace OpKind

/-- The name of the operator. -/
def label : OpKind → String
  | unary => "Unary"
  | binary => "Binary"
  | concat => "Concat"
  | assign => "Assign"
  | keyValue => "KeyValue"
  | ternary => "Ternary"
  | coalescing => "Coalescing"
  | textual => "Textual"
  | scope => "Scope"
  | object => "Object"
  | nullsafe => "Nullsafe"
  | declareEqual => "DeclareEqual"
  | union => "Union"
  | intersection => "Intersection"
  | multiCatch => "MultiCatch"

/-- All of them, in the order of their declaration. -/
def all : List OpKind := [
  .unary, .binary, .concat, .assign, .keyValue, .ternary, .coalescing, .textual, .scope,
  .object, .nullsafe, .declareEqual, .union, .intersection, .multiCatch]

end OpKind

/-- A list with commas that may be broken over lines; a plain list never is by itself. -/
inductive ListKind where
  | params | args | array | groupUse | implements | forHead | plain
deriving DecidableEq, Repr, Inhabited

namespace ListKind

/-- The name of the list. -/
def label : ListKind → String
  | params => "Params"
  | args => "Args"
  | array => "Array"
  | groupUse => "GroupUse"
  | implements => "Implements"
  | forHead => "For"
  | plain => "Plain"

/-- All of them, in the order of their declaration. -/
def all : List ListKind := [
  .params, .args, .array, .groupUse, .implements, .forHead, .plain]

end ListKind

/-- A policy on blank lines between declarations. -/
inductive BlankPolicy where
  | beforeNamespace | afterNamespace | beforeUse | afterUse | betweenUseTypes | beforeUseTrait
  | afterUseTrait | beforeClass | afterClass | beforeFields | afterFields | betweenFields
  | beforeFunction | afterFunction
deriving DecidableEq, Repr, Inhabited

namespace BlankPolicy

/-- The name of the policy. -/
def label : BlankPolicy → String
  | beforeNamespace => "BeforeNamespace"
  | afterNamespace => "AfterNamespace"
  | beforeUse => "BeforeUse"
  | afterUse => "AfterUse"
  | betweenUseTypes => "BetweenUseTypes"
  | beforeUseTrait => "BeforeUseTrait"
  | afterUseTrait => "AfterUseTrait"
  | beforeClass => "BeforeClass"
  | afterClass => "AfterClass"
  | beforeFields => "BeforeFields"
  | afterFields => "AfterFields"
  | betweenFields => "BetweenFields"
  | beforeFunction => "BeforeFunction"
  | afterFunction => "AfterFunction"

/-- All of them, in the order of their declaration. -/
def all : List BlankPolicy := [
  .beforeNamespace, .afterNamespace, .beforeUse, .afterUse, .betweenUseTypes, .beforeUseTrait,
  .afterUseTrait, .beforeClass, .afterClass, .beforeFields, .afterFields, .betweenFields,
  .beforeFunction, .afterFunction]

end BlankPolicy

/-- A keyword that continues a statement after a body. -/
inductive ContinuationKeyword where
  | elseWord | whileWord | catchWord | finallyWord
deriving DecidableEq, Repr, Inhabited

namespace ContinuationKeyword

/-- The name of the keyword. -/
def label : ContinuationKeyword → String
  | elseWord => "Else"
  | whileWord => "While"
  | catchWord => "Catch"
  | finallyWord => "Finally"

/-- All of them, in the order of their declaration. -/
def all : List ContinuationKeyword := [
  .elseWord, .whileWord, .catchWord, .finallyWord]

end ContinuationKeyword

/-- What a gap is for. -/
inductive Role where
  /-- Blank lines between declarations. -/
  | blank (policy : BlankPolicy)
  | beforeStatement
  | beforeLeftBrace (construct : Construct)
  | afterLeftBrace (construct : Construct)
  | beforeRightBrace (construct : Construct)
  | beforeParen (paren : ParenKind)
  | afterLeftParen (paren : ParenKind)
  | beforeRightParen (paren : ParenKind)
  /-- A break after the opening or before the closing sign of a broken list. -/
  | breakList
  /-- A left brace that stays behind a broken parameter list. -/
  | keptLeftBrace (construct : Construct)
  | beforeOp (op : OpKind)
  | afterOp (op : OpKind)
  | beforeComma
  | afterComma
  /-- A place inside a list where it may be broken. -/
  | inList (list : ListKind)
  | beforeSemi
  | afterSemi
  /-- After a semicolon in the head of a counting loop. -/
  | afterForSemi
  | beforeKeyword (keyword : ContinuationKeyword)
  | afterKeyword
  | afterModifiers
  | afterType
  | beforeColon
  | afterColon
  | afterTypeCast
  | afterAttribute
  | beforeExtends
  | beforeImplements
  /-- Before a body without braces. -/
  | bodyWithoutBraces (construct : Construct)
  | inChainedMethodCalls
  | afterOpenTag
  | beforeCloseTag
deriving DecidableEq, Repr, Inhabited

/-- A name with an argument in parentheses. -/
def labelled (name argument : String) : String := name ++ "(" ++ argument ++ ")"

/-- The name of the role, with what it is about. -/
def Role.label : Role → String
  | blank policy => labelled "Blank" policy.label
  | beforeStatement => "BeforeStatement"
  | beforeLeftBrace construct => labelled "BeforeLeftBrace" construct.label
  | afterLeftBrace construct => labelled "AfterLeftBrace" construct.label
  | beforeRightBrace construct => labelled "BeforeRightBrace" construct.label
  | beforeParen paren => labelled "BeforeParen" paren.label
  | afterLeftParen paren => labelled "AfterLeftParen" paren.label
  | beforeRightParen paren => labelled "BeforeRightParen" paren.label
  | breakList => "BreakList"
  | keptLeftBrace construct => labelled "KeptLeftBrace" construct.label
  | beforeOp op => labelled "BeforeOp" op.label
  | afterOp op => labelled "AfterOp" op.label
  | beforeComma => "BeforeComma"
  | afterComma => "AfterComma"
  | inList list => labelled "InList" list.label
  | beforeSemi => "BeforeSemi"
  | afterSemi => "AfterSemi"
  | afterForSemi => "AfterForSemi"
  | beforeKeyword keyword => labelled "BeforeKeyword" keyword.label
  | afterKeyword => "AfterKeyword"
  | afterModifiers => "AfterModifiers"
  | afterType => "AfterType"
  | beforeColon => "BeforeColon"
  | afterColon => "AfterColon"
  | afterTypeCast => "AfterTypeCast"
  | afterAttribute => "AfterAttribute"
  | beforeExtends => "BeforeExtends"
  | beforeImplements => "BeforeImplements"
  | bodyWithoutBraces construct => labelled "BodyWithoutBraces" construct.label
  | inChainedMethodCalls => "InChainedMethodCalls"
  | afterOpenTag => "AfterOpenTag"
  | beforeCloseTag => "BeforeCloseTag"

end CodeLayout
