import CodeLayout.Render.Width
import CodeLayout.Word

/-!
# What a role asks for

Each role of a gap, looked at with the style and the surroundings of the gap, asks for one thing: a
fixed gap, a gap that decides over all others, a gap that leaves a line break of the source where it
is, or a number of blank lines.
-/

namespace CodeLayout.Render

/-- Where a line starts after a break. -/
inductive LineStart where
  | indent
  /-- The indent and the size of a continuation. -/
  | continuation
  /-- The column of the innermost anchor. -/
  | anchor
deriving DecidableEq, Repr

/-- What a role asks for. -/
inductive Demand where
  /-- So many lines and spaces; the last one of a gap counts. -/
  | fixed (lines spaces : Nat)
  /-- So many lines and spaces, whatever other roles say. -/
  | forced (lines spaces : Nat)
  /-- Spaces, or the break that the source has. -/
  | soft (spaces : Nat) (start : LineStart)
  /-- At least so many blank lines if the line is broken. -/
  | blank (lines : Nat)
deriving DecidableEq, Repr

/-- What a role may look at. -/
structure GapView where
  style : Style
  /-- The indent of a line that starts after the gap. -/
  indent : Nat
  /-- The column of the innermost anchor. -/
  anchor : Option Nat
  /-- The column before the gap. -/
  column : Nat
  /-- The blanks of the source; none if the gap of the source holds anything else. -/
  old : Option String
  /-- The width of the text up to the next place where a line may be broken. -/
  nextWidth : Nat
  /-- The same with the operand of an operator that comes next. -/
  operandWidth : Nat
  /-- How far the current line has moved. -/
  lineShift : Int
  /-- How far the line has moved that opened the block which ends here. -/
  blockShift : Int
  /-- The text before the gap. -/
  prevText : String
  hasHtml : Bool

namespace GapView

/-- The number of line breaks of the source. -/
def oldNewlines (v : GapView) : Nat :=
  match v.old with
  | some old => newlines old
  | none => 0

/-- The number of line breaks of the source that may be kept. -/
def keep (v : GapView) : Nat := min v.oldNewlines (Word.add v.style.blankLines.maxPreserved 1)

/-- The column at which a line starts. -/
def lineStart (v : GapView) : LineStart → Nat
  | .indent => v.indent
  | .continuation => v.indent + v.style.indent.continuationSize
  | .anchor => v.anchor.getD v.indent

/-- Would text of the width behind a space reach past the margin? -/
def tooLong (v : GapView) (width : Nat) : Bool :=
  v.column + 1 + width > v.style.indent.margin

/-- Keep the line break of the source, if the style keeps any. -/
def keepOr (v : GapView) (spaces : Nat) (start : LineStart) : Demand :=
  if v.style.wrap.neverKeepLines then .fixed 0 spaces else .soft spaces start

/-- Break the line as the option says, before text of the width. -/
def wrap (v : GapView) (breakable : Bool) (wrapping : Wrapping) (width : Nat) (start : LineStart)
    (spaces : Nat) : Demand :=
  let broken := match wrapping with
    | .always => true
    | .ifLong => v.tooLong width
    | .never => false
  if breakable && broken then .fixed 1 (v.lineStart start) else v.keepOr spaces start

end GapView

/-- One space or none. -/
def spaceIf (b : Bool) : Nat := if b then 1 else 0

/-- A column moved by a number of columns, at least zero. -/
def shifted (column : Nat) (shift : Int) : Nat := (column + shift : Int).toNat

/-- May the content of the pair start a line of its own? -/
def isListParen : ParenKind → Bool
  | .methodDecl | .methodCall | .anonymousFunction | .anonymousClass | .arrayDecl
  | .arrayBrackets | .attributeGroup | .attributeDecl | .forHead => true
  | _ => false

/-- The blank lines after the left brace of the construct. -/
def blankAfterHeader (style : Style) : Construct → Nat
  | .classDecl | .anonymousClass => style.blankLines.afterClassHeader
  | _ => 0

/-- The blank lines before the right brace of the construct. -/
def blankBeforeEnd (style : Style) : Construct → Nat
  | .classDecl | .anonymousClass => style.blankLines.beforeClassEnd
  | .function => style.blankLines.beforeFunctionEnd
  | _ => 0

/-- The indent of the right brace of the construct. -/
def closingIndent (v : GapView) (c : Construct) : Nat :=
  if v.style.bracePlacement c == .newLineIndented then v.indent + v.style.indent.indentSize
  else v.indent

/-- The gap of the source, moved by a number of columns where it breaks the line. -/
def asBefore (v : GapView) (shift : Int) (old : String) : Demand :=
  if Text.hasNewline old then .fixed (newlines old) (shifted (trailingWidth v.style old) shift)
  else .fixed 0 (v.style.visualWidth old v.column)

/-- The gap before a left brace. -/
def leftBrace (v : GapView) (c : Construct) : Demand :=
  match v.style.bracePlacement c with
  | .sameLine => .fixed 0 (spaceIf (v.style.spaceBeforeLeftBrace c))
  | .newLine => .fixed 1 v.indent
  | .newLineIndented => .fixed 1 (v.indent + v.style.indent.indentSize)
  | .preserveExisting =>
    match v.old with
    | some old => asBefore v v.lineShift old
    | none => .fixed 1 v.indent

/-- The gap before a right brace. -/
def rightBrace (v : GapView) (c : Construct) : Demand :=
  match v.style.bracePlacement c, v.old with
  | .preserveExisting, some old => asBefore v v.blockShift old
  | _, _ => .fixed (Word.add 1 (blankBeforeEnd v.style c)) (closingIndent v c)

/-- The gap before or after an operator.  A break before it takes its operand along. -/
def operatorGap (v : GapView) (breakable : Bool) (op : OpKind) (isBefore : Bool) : Demand :=
  let space := spaceIf (v.style.spaceAround op)
  match v.style.opWrap? op with
  | none => .fixed 0 space
  | some wrapping =>
    if v.style.wrapsAfter op != isBefore then
      v.wrap breakable wrapping (if isBefore then v.operandWidth else v.nextWidth) .continuation
        space
    else if wrapping == .always && breakable then .fixed 0 space
    else v.keepOr space .continuation

/-- The gap after an open tag. -/
def afterOpenTag (v : GapView) : Demand :=
  if "<?=".toList.isPrefixOf v.prevText.toList then
    .forced 0 (spaceIf v.style.spaces.afterShortPhpTag)
  else
    let blank := if v.hasHtml then v.style.blankLines.afterOpenPhpTagInHtml
      else v.style.blankLines.afterOpenPhpTag
    if v.oldNewlines > 0 || !v.hasHtml then .forced (max (Word.add blank 1) v.keep) v.indent
    else .forced 0 1

/-- The gap before a close tag. -/
def beforeCloseTag (v : GapView) : Demand :=
  if v.oldNewlines > 0 then
    .forced (max (Word.add v.style.blankLines.beforeClosePhpTag 1) v.keep) v.indent
  else .forced 0 (spaceIf v.style.spaces.beforeClosePhpTag)

/-- What a role asks for; `breakable` if a line may be broken here. -/
def demand (v : GapView) (breakable : Bool) : Role → Demand
  | .blank policy => .blank (v.style.blankLineMinimum policy)
  | .beforeStatement =>
    if v.style.wrap.statementsOnTheSameLine || v.oldNewlines > 0 then
      .fixed (max v.keep 1) v.indent
    else .fixed 0 (spaceIf v.style.spaces.afterSemi)
  | .beforeLeftBrace c => leftBrace v c
  | .keptLeftBrace c => .fixed 0 (spaceIf (v.style.spaceBeforeLeftBrace c))
  | .afterLeftBrace c => .fixed (Word.add 1 (blankAfterHeader v.style c)) v.indent
  | .beforeRightBrace c => rightBrace v c
  | .beforeParen p => .fixed 0 (spaceIf (v.style.spaceBeforeParen p))
  | .afterLeftParen p | .beforeRightParen p =>
    let spaces := spaceIf (v.style.spaceWithin p)
    if isListParen p then v.keepOr spaces .indent else .fixed 0 spaces
  | .breakList => .fixed 1 v.indent
  | .beforeOp op => operatorGap v breakable op true
  | .afterOp op => operatorGap v breakable op false
  | .beforeComma => .fixed 0 (spaceIf v.style.spaces.beforeComma)
  | .afterComma => v.keepOr (spaceIf v.style.spaces.afterComma) .indent
  | .inList kind =>
    v.wrap breakable (v.style.listWrap kind) v.nextWidth
      (if v.style.listAligned kind then .anchor else .indent)
      (spaceIf v.style.spaces.afterComma)
  | .beforeSemi => .fixed 0 (spaceIf v.style.spaces.beforeSemi)
  | .afterSemi | .afterForSemi => v.keepOr (spaceIf v.style.spaces.afterSemi) .indent
  | .beforeKeyword k =>
    if v.style.keywordOnNewLine k || v.prevText.toList.getLast? != some '\x7d' then
      .fixed 1 v.indent
    else .fixed 0 (spaceIf (v.style.spaceBeforeKeyword k))
  | .afterKeyword | .afterType | .afterColon => .fixed 0 1
  | .afterModifiers =>
    if v.style.placement.newLineAfterModifiers then .fixed 1 v.indent else .fixed 0 1
  | .beforeColon => .fixed 0 0
  | .afterTypeCast => .fixed 0 (spaceIf v.style.spaces.afterTypeCast)
  | .afterAttribute => if v.oldNewlines > 0 then .fixed 1 v.indent else .fixed 0 1
  | .beforeExtends | .beforeImplements =>
    v.wrap breakable v.style.wrap.extendsImplementsKeyword v.nextWidth .indent 1
  | .bodyWithoutBraces c => v.wrap true (v.style.bodyWrap c) v.nextWidth .indent 1
  | .inChainedMethodCalls =>
    v.wrap breakable v.style.wrap.chainedMethodCalls v.nextWidth .continuation 0
  | .afterOpenTag => afterOpenTag v
  | .beforeCloseTag => beforeCloseTag v

/-- What closes the pair that the role opens, if it opens one. -/
def closing? : Role → Option Role
  | .afterLeftParen p => some (.beforeRightParen p)
  | .afterLeftBrace c => some (.beforeRightBrace c)
  | _ => none

/-- The gap inside an empty pair: one role opens a pair that another one closes.  The first pair
that is opened counts. -/
def emptyPair? (v : GapView) (roles : List Role) : Option (Nat × Nat) := do
  let opened ← roles.find? fun r => (closing? r).isSome
  let closed ← closing? opened
  if !roles.contains closed then none
  match closed with
  | .beforeRightBrace c =>
    if v.style.wrap.blockBraces then some (1, closingIndent v c) else some (0, 0)
  | _ => some (0, 0)

end CodeLayout.Render
