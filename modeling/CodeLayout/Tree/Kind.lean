/-!
# Kinds of syntax nodes
-/

namespace CodeLayout

/-- The kind of an inner node of a syntax tree. -/
inductive NodeKind where
  | program | exprStmt | echoStmt | echoTag | returnStmt | jumpStmt | globalStmt | staticStmt
  | ifStmt | elseIfClause | elseClause | whileStmt | doStmt | forStmt | foreachStmt
  | switchStmt | switchBody | caseClause | tryStmt | catchClause | finallyClause | block
  | emptyStmt | declareStmt | namespaceDecl | useStmt | useClause | groupUseList | constStmt
  | constElement | functionDecl | paramList | param | returnType | classDecl | interfaceDecl
  | traitDecl | enumDecl | enumBackingType | extendsClause | implementsClause | classBody
  | propertyDecl | propertyElement | classConstDecl | methodDecl | traitUse | traitUseBody
  | enumCase | attributeGroup | attributeItem | nullableType | unionType | intersectionType
  | assignExpr | binaryExpr | instanceofExpr | unaryExpr | postfixExpr | castExpr | ternaryExpr
  | coalesceExpr | parenExpr | callExpr | argList | namedArg | methodCall | staticCall
  | propertyFetch | staticAccess | indexExpr | newExpr | anonClass | cloneExpr | includeExpr
  | printExpr | yieldExpr | throwExpr | arrayLiteral | arrayElement | listExpr | matchExpr
  | matchArm | closureExpr | closureUse | arrowFnExpr | dynamicName | error
deriving DecidableEq, Repr, Inhabited

namespace NodeKind

/-- Declarations of types: their bodies hold members. -/
def isTypeDecl : NodeKind → Bool
  | classDecl | interfaceDecl | traitDecl | enumDecl => true
  | _ => false

/-- Nodes with a parameter list and a body. -/
def isFunctionLike : NodeKind → Bool
  | functionDecl | methodDecl | closureExpr | arrowFnExpr => true
  | _ => false

/-- Nodes that end with an argument list. -/
def isCall : NodeKind → Bool
  | callExpr | methodCall | staticCall => true
  | _ => false

/-- The name of the kind. -/
def label : NodeKind → String
  | program => "Program"
  | exprStmt => "ExprStmt"
  | echoStmt => "EchoStmt"
  | echoTag => "EchoTag"
  | returnStmt => "ReturnStmt"
  | jumpStmt => "JumpStmt"
  | globalStmt => "GlobalStmt"
  | staticStmt => "StaticStmt"
  | ifStmt => "IfStmt"
  | elseIfClause => "ElseIfClause"
  | elseClause => "ElseClause"
  | whileStmt => "WhileStmt"
  | doStmt => "DoStmt"
  | forStmt => "ForStmt"
  | foreachStmt => "ForeachStmt"
  | switchStmt => "SwitchStmt"
  | switchBody => "SwitchBody"
  | caseClause => "CaseClause"
  | tryStmt => "TryStmt"
  | catchClause => "CatchClause"
  | finallyClause => "FinallyClause"
  | block => "Block"
  | emptyStmt => "EmptyStmt"
  | declareStmt => "DeclareStmt"
  | namespaceDecl => "NamespaceDecl"
  | useStmt => "UseStmt"
  | useClause => "UseClause"
  | groupUseList => "GroupUseList"
  | constStmt => "ConstStmt"
  | constElement => "ConstElement"
  | functionDecl => "FunctionDecl"
  | paramList => "ParamList"
  | param => "Param"
  | returnType => "ReturnType"
  | classDecl => "ClassDecl"
  | interfaceDecl => "InterfaceDecl"
  | traitDecl => "TraitDecl"
  | enumDecl => "EnumDecl"
  | enumBackingType => "EnumBackingType"
  | extendsClause => "ExtendsClause"
  | implementsClause => "ImplementsClause"
  | classBody => "ClassBody"
  | propertyDecl => "PropertyDecl"
  | propertyElement => "PropertyElement"
  | classConstDecl => "ClassConstDecl"
  | methodDecl => "MethodDecl"
  | traitUse => "TraitUse"
  | traitUseBody => "TraitUseBody"
  | enumCase => "EnumCase"
  | attributeGroup => "AttributeGroup"
  | attributeItem => "Attribute"
  | nullableType => "NullableType"
  | unionType => "UnionType"
  | intersectionType => "IntersectionType"
  | assignExpr => "AssignExpr"
  | binaryExpr => "BinaryExpr"
  | instanceofExpr => "InstanceofExpr"
  | unaryExpr => "UnaryExpr"
  | postfixExpr => "PostfixExpr"
  | castExpr => "CastExpr"
  | ternaryExpr => "TernaryExpr"
  | coalesceExpr => "CoalesceExpr"
  | parenExpr => "ParenExpr"
  | callExpr => "CallExpr"
  | argList => "ArgList"
  | namedArg => "NamedArg"
  | methodCall => "MethodCall"
  | staticCall => "StaticCall"
  | propertyFetch => "PropertyFetch"
  | staticAccess => "StaticAccess"
  | indexExpr => "IndexExpr"
  | newExpr => "NewExpr"
  | anonClass => "AnonClass"
  | cloneExpr => "CloneExpr"
  | includeExpr => "IncludeExpr"
  | printExpr => "PrintExpr"
  | yieldExpr => "YieldExpr"
  | throwExpr => "ThrowExpr"
  | arrayLiteral => "ArrayLiteral"
  | arrayElement => "ArrayElement"
  | listExpr => "ListExpr"
  | matchExpr => "MatchExpr"
  | matchArm => "MatchArm"
  | closureExpr => "ClosureExpr"
  | closureUse => "ClosureUse"
  | arrowFnExpr => "ArrowFnExpr"
  | dynamicName => "DynamicName"
  | error => "Error"

/-- All kinds, in the order of their declaration. -/
def all : List NodeKind := [
  .program, .exprStmt, .echoStmt, .echoTag, .returnStmt, .jumpStmt, .globalStmt, .staticStmt,
  .ifStmt, .elseIfClause, .elseClause, .whileStmt, .doStmt, .forStmt, .foreachStmt, .switchStmt,
  .switchBody, .caseClause, .tryStmt, .catchClause, .finallyClause, .block, .emptyStmt,
  .declareStmt, .namespaceDecl, .useStmt, .useClause, .groupUseList, .constStmt, .constElement,
  .functionDecl, .paramList, .param, .returnType, .classDecl, .interfaceDecl, .traitDecl,
  .enumDecl, .enumBackingType, .extendsClause, .implementsClause, .classBody, .propertyDecl,
  .propertyElement, .classConstDecl, .methodDecl, .traitUse, .traitUseBody, .enumCase,
  .attributeGroup, .attributeItem, .nullableType, .unionType, .intersectionType, .assignExpr,
  .binaryExpr, .instanceofExpr, .unaryExpr, .postfixExpr, .castExpr, .ternaryExpr,
  .coalesceExpr, .parenExpr, .callExpr, .argList, .namedArg, .methodCall, .staticCall,
  .propertyFetch, .staticAccess, .indexExpr, .newExpr, .anonClass, .cloneExpr, .includeExpr,
  .printExpr, .yieldExpr, .throwExpr, .arrayLiteral, .arrayElement, .listExpr, .matchExpr,
  .matchArm, .closureExpr, .closureUse, .arrowFnExpr, .dynamicName, .error]

/-- The kind with the given name. -/
def ofLabel? (name : String) : Option NodeKind := all.find? (·.label == name)

end NodeKind

end CodeLayout
