import CodeLayout.Annotate.Declaration
import CodeLayout.Annotate.Expression

/-!
# Annotation of a program

Each kind of node has its layout; a visit follows the tree down to its leaves.  The stream of a
source starts with an item that tells whether the source holds markup, and ends with what follows
the last leaf.
-/

namespace CodeLayout

namespace Annotate

/-- Lay out a node of the kind inside a node of the parent kind. -/
def visitNode (visit : Visit) (parent kind : NodeKind) (t : Tree) : Emit Unit :=
  let children := t.children
  match kind with
  | .program => statements visit kind .block t.childNodes
  | .exprStmt | .echoStmt | .globalStmt | .staticStmt | .echoTag | .returnStmt | .jumpStmt
  | .useStmt | .constStmt | .enumCase | .useClause | .newExpr | .cloneExpr | .includeExpr
  | .printExpr | .yieldExpr | .throwExpr => walk visit kind children
  | .ifStmt => ifStmt visit kind children
  | .elseIfClause => conditionalOnly visit kind children .ifCondition .ifBranch
  | .elseClause => elseClause visit kind children
  | .whileStmt => conditionalOnly visit kind children .whileCondition .whileLoop
  | .doStmt => doStmt visit kind children
  | .forStmt => forStmt visit kind children
  | .foreachStmt => conditionalOnly visit kind children .forHead .forLoop
  | .switchStmt => switchStmt visit kind children
  | .switchBody => switchBody visit kind children
  | .caseClause => caseClause visit kind children
  | .tryStmt => tryStmt visit kind children
  | .catchClause => catchParts visit kind children
  | .finallyClause => finallyClause visit kind children
  | .block => blockOf visit .other none t
  | .declareStmt => declareParts visit kind true children
  | .namespaceDecl => namespaceDecl visit kind children
  | .groupUseList => groupUseList visit kind children
  | .functionDecl | .methodDecl => functionDecl visit kind t
  | .paramList => paramList visit parent kind children
  | .param => param visit kind children
  | .returnType | .enumBackingType => colonType visit kind children
  | .classDecl | .interfaceDecl | .traitDecl | .enumDecl => typeDecl visit kind children
  | .extendsClause | .implementsClause => inheritanceClause visit kind children
  | .classBody => classBody visit parent kind children
  | .propertyDecl | .classConstDecl => fieldDecl visit kind children
  | .traitUse => traitUse visit kind children
  | .traitUseBody => traitUseBody visit kind children
  | .attributeGroup => attributeGroup visit kind children
  | .unionType | .intersectionType => typeList visit kind children
  | .assignExpr | .arrayElement | .constElement | .propertyElement => aligned visit kind t
  | .binaryExpr | .instanceofExpr | .coalesceExpr => binary visit kind children
  | .unaryExpr => unary visit kind children
  | .postfixExpr => trailing visit kind children
  | .ternaryExpr => ternary visit kind children
  | .parenExpr => delimited visit kind .other children
  | .argList => argList visit parent kind children
  | .namedArg => namedArg visit kind children
  | .methodCall | .propertyFetch | .staticCall | .staticAccess =>
    memberAccess visit kind children
  | .indexExpr => indexExpr visit kind children
  | .anonClass => anonClass visit kind children
  | .arrayLiteral | .listExpr => arrayLiteral visit kind t
  | .matchExpr => matchExpr visit kind t
  | .matchArm => matchArm visit kind t
  | .closureExpr | .arrowFnExpr => closure visit kind children
  | .closureUse => closureUse visit kind children
  | .dynamicName => delimited visit kind .dynamicName children
  | .emptyStmt | .attributeItem | .nullableType | .castExpr | .callExpr =>
    visitAll visit kind children
  | .error => verbatim t

/-- Visit a tree whose height the first argument bounds. -/
def visitTree : Nat → Visit
  | _, _, .leaf i _ => leaf i
  | 0, _, .node .. => return ()
  | n + 1, parent, t@(.node kind _ _) => visitNode (visitTree n) parent kind t

/-- Does the source hold markup other than blanks? -/
def hasMarkup (source : String) (tokens : Array Token) : Bool :=
  tokens.any fun t => t.kind == .inlineHtml && !Text.isAllWhiteSpace (t.text source)

/-- Lay out a whole source. -/
def program (t : Tree) : Emit Unit := do
  let c ← read
  push (.mark (.init (hasMarkup c.source c.tokens)) 0 true)
  statements (visitTree t.height) .program .block t.childNodes
  trivia c.tokens.size

end Annotate

/-- The annotated stream of a parsed source. -/
def annotate (source : String) (parsed : Parsed) (style : Style) :
    Except LayoutError ItemStream := do
  let ((), s) ← (Annotate.program parsed.tree).run ⟨source, parsed.tokens, style⟩ |>.run {}
  return ⟨s.items, s.groups⟩

end CodeLayout
