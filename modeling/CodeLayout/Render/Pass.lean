import CodeLayout.Edit.Basic
import CodeLayout.Render.Comment
import CodeLayout.Render.Gap
import CodeLayout.Text.Blank

/-!
# Rendering passes

A pass goes over the items of a stream and writes the gaps between its texts.  The marks of a gap
are taken in one by one; at the next text the gap is decided from its roles, and written.  A pass
keeps track of where on the screen the written text ends.

A pass that lines nothing up measures the members of the alignment groups.
-/

namespace CodeLayout.Render

/-- What a pass looks at. -/
structure Pass where
  style : Style
  /-- The text that the items are pieces of. -/
  source : String
  hasHtml : Bool
  /-- Do pieces with syntax problems move with their first line? -/
  movesVerbatim : Bool
  /-- The padding before the operator of a member. -/
  padding : MemberRef → Option Padding

/-- What is written for a stretch of the source. -/
structure Piece where
  offset : Nat
  length : Nat
  old : String
  new : String
deriving DecidableEq, Repr

/-- The edit that writes the piece, if it changes anything. -/
def Piece.edit? (p : Piece) : Option Edit :=
  if p.new == p.old then none else some ⟨p.offset, p.length, p.new⟩

/-- A member whose operator has not been reached. -/
structure OpenMember where
  member : MemberRef
  /-- Where its text starts. -/
  column : Nat
  line : Nat
deriving DecidableEq, Repr

/-- The marks of the gap that is being read. -/
structure Marks where
  roles : List (Role × Bool) := []
  /-- The member whose operator comes next. -/
  align : Option MemberRef := none
  /-- The members whose text comes next. -/
  starts : List MemberRef := []
  /-- How far the line has moved that opened the block which ends in this gap. -/
  blockShift : Int := 0
deriving DecidableEq, Repr

/-- How far a pass has come. -/
structure State where
  /-- The number of items read. -/
  index : Nat := 0
  /-- The last text. -/
  prev : Option Item := none
  marks : Marks := {}
  /-- The sum of the changes of the indent. -/
  level : Int := 0
  /-- The indent of code in markup. -/
  base : Nat := 0
  /-- Where the written text ends. -/
  column : Nat := 0
  line : Nat := 0
  /-- The columns of the anchors, the innermost first; none until the text after it is reached. -/
  anchors : List (Option Nat) := []
  openMembers : List OpenMember := []
  measures : List (MemberRef × Measure) := []
  /-- How far the last gap moved the line that it starts. -/
  lineDelta : Int := 0
  /-- How far the current line has moved. -/
  lineShift : Int := 0
  /-- How far the lines with the open braces have moved, the innermost first. -/
  braceShifts : List Int := []
  pieces : Array Piece := #[]

namespace State

/-- The indent of a line that starts here. -/
def indent (s : State) : Nat := (s.base + s.level : Int).toNat

/-- The column of the innermost anchor that has one. -/
def anchor? (s : State) : Option Nat := s.anchors.findSome? id

/-- The offset up to which the source has been written. -/
def written (s : State) : Nat :=
  match s.prev with
  | some p => p.stop
  | none => 0

/-- The operator of the member is reached: its measure is taken.  It has a width if the text before
the operator is on one line. -/
def closeMember (s : State) (m : MemberRef) : State :=
  match s.openMembers.find? (·.member == m) with
  | none => s
  | some o =>
    let width := if o.line == s.line && o.column ≤ s.column then some (s.column - o.column)
      else none
    { s with
      openMembers := s.openMembers.eraseP (·.member == m)
      measures := s.measures ++ [(m, ⟨o.column, width⟩)] }

/-- Take a role in. -/
def addRole (s : State) (role : Role) (breakable : Bool) : State :=
  let s := match role with
    | .afterLeftBrace _ => { s with braceShifts := s.lineShift :: s.braceShifts }
    | .beforeRightBrace _ =>
      { s with
        marks := { s.marks with blockShift := s.braceShifts.headD 0 }
        braceShifts := s.braceShifts.tail }
    | _ => s
  { s with marks := { s.marks with roles := s.marks.roles ++ [(role, breakable)] } }

/-- Take a mark of a gap in. -/
def addMark (s : State) (i : Item) : State :=
  let s := match i.kind with
    | .indent delta => { s with level := s.level + delta }
    | .role r => s.addRole r i.breakable
    | .anchor => { s with anchors := none :: s.anchors }
    | .anchorEnd => { s with anchors := s.anchors.tail }
    | .alignStart m => { s with marks := { s.marks with starts := s.marks.starts ++ [m] } }
    | .align m => { s.closeMember m with marks := { s.marks with align := some m } }
    | _ => s
  { s with index := s.index + 1 }

/-- Write a text: the column and the line follow. -/
def advance (s : State) (style : Style) (text : String) : State :=
  if Text.hasNewline text then
    { s with line := s.line + newlines text, column := trailingWidth style text }
  else { s with column := s.column + style.visualWidth text s.column }

/-- Write a piece. -/
def write (s : State) (style : Style) (p : Piece) : State :=
  let s := s.advance style p.new
  { s with pieces := s.pieces.push p }

/-- The text after a gap is reached: it sets the column of the anchors that wait for one, and
members start. -/
def arrive (s : State) : State :=
  { s with
    anchors := s.anchors.map (·.or (some s.column))
    openMembers := s.openMembers ++ s.marks.starts.map fun m => ⟨m, s.column, s.line⟩
    marks := {} }

end State

namespace Pass

/-- What the roles of a gap look at; `ahead` are the items from the next text on. -/
def view (p : Pass) (s : State) (old : String) (ahead : List Item) : GapView where
  style := p.style
  indent := s.indent
  anchor := s.anchor?
  column := s.column
  old := if Text.isAllWhiteSpace old then some old else none
  nextWidth := sequenceWidth p.style p.source false {} ahead
  operandWidth := sequenceWidth p.style p.source true {} ahead
  lineShift := s.lineShift
  blockShift := s.marks.blockShift
  prevText := match s.prev with
    | some t => t.text p.source
    | none => ""
  hasHtml := p.hasHtml

/-- Spaces, widened to the column of the alignment group before an operator. -/
def spaces (p : Pass) (align : Option MemberRef) (n : Nat) : String :=
  match align.bind p.padding with
  | some (.spaces more) => Text.repeated ' ' (more + n)
  | some (.tabs tabs) => if tabs > 0 then Text.repeated '\t' tabs else Text.repeated ' ' n
  | none => Text.repeated ' ' n

/-- The text of a gap. -/
def gapText (p : Pass) (align : Option MemberRef) (old : String) : Gap → String
  | .kept => old
  | .broken lines n => Text.repeated '\n' lines ++ p.style.indentString n
  | .inline n => p.spaces align n

/-- How far a gap moves the line that it starts. -/
def moved (p : Pass) (old : String) : Gap → Int
  | .broken _ n => if Text.hasNewline old then (n : Int) - trailingWidth p.style old else 0
  | _ => 0

/-- How far the line after a gap has moved. -/
def lineShift (p : Pass) (s : State) (old : String) (gap : Gap) : Int :=
  match gap with
  | .broken .. => p.moved old gap
  | .kept => if Text.hasNewline old then 0 else s.lineShift
  | .inline _ => s.lineShift

/-- The gap that is decided before the items ahead. -/
def gapBefore (p : Pass) (s : State) (old : String) (ahead : List Item) : Gap :=
  let prev := s.prev.map Item.kind
  match ahead with
  | next :: _ => gapBetween (p.view s old ahead) s.marks.roles prev next.kind
  | [] => lastGap p.style prev old

/-- Write the gap before the items ahead. -/
def writeGap (p : Pass) (s : State) (ahead : List Item) : Except LayoutError State :=
  let start := s.written
  let stop := match ahead with
    | next :: _ => next.offset
    | [] => Text.size p.source
  match Text.slice? p.source start stop with
  | none => .error (.outOfOrder s.index stop start)
  | some old =>
    let gap := p.gapBefore s old ahead
    let piece : Piece := ⟨start, stop - start, old, p.gapText s.marks.align old gap⟩
    let s := { s with lineDelta := p.moved old gap, lineShift := p.lineShift s old gap }
    .ok (s.write p.style piece).arrive

/-- The text of an item as it is written. -/
def itemText (p : Pass) (s : State) (i : Item) : String :=
  let text := i.text p.source
  match i.kind with
  | .blockComment | .docComment => reindent p.style s.column text
  | .verbatim => if p.movesVerbatim then shiftLines p.style s.lineDelta text else text
  | _ => text

/-- The indent of code after an item: an open tag in markup sets it. -/
def baseAfter (p : Pass) (s : State) (i : Item) : Nat :=
  match i.kind with
  | .openTag => if p.hasHtml then lineIndentAt p.style p.source i.offset else s.base
  | .closeTag => p.style.indent.initialIndent
  | _ => s.base

/-- Write a text. -/
def writeText (p : Pass) (s : State) (i : Item) : State :=
  let piece : Piece := ⟨i.offset, i.length, i.text p.source, p.itemText s i⟩
  let s := { s with base := p.baseAfter s i, prev := some i, index := s.index + 1 }
  s.write p.style piece

/-- Write the items from a state on. -/
def renderFrom (p : Pass) (s : State) : List Item → Except LayoutError State
  | [] => p.writeGap s []
  | i :: rest =>
    if i.kind.isText then do
      let s ← p.writeGap s (i :: rest)
      p.renderFrom (p.writeText s i) rest
    else p.renderFrom (s.addMark i) rest

/-- Write all items. -/
def render (p : Pass) (items : List Item) : Except LayoutError State :=
  p.renderFrom { base := p.style.indent.initialIndent } items

end Pass

end CodeLayout.Render
