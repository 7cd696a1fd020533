import CodeLayout.Render.Rule

/-!
# The gap between two texts

The demands of all roles of a gap together decide it.  A forced demand comes first, then the last
fixed one, then the last soft one; without any, a line break of the source stays.  Blank lines are
added where the line is broken.
-/

namespace CodeLayout.Render

/-- What is written between two texts. -/
inductive Gap where
  /-- The gap of the source. -/
  | kept
  /-- Line breaks, and the indent of the next line. -/
  | broken (lines spaces : Nat)
  /-- Spaces on the same line. -/
  | inline (spaces : Nat)
deriving DecidableEq, Repr

namespace Gap

/-- So many lines and spaces. -/
def ofCounts (lines spaces : Nat) : Gap :=
  if lines > 0 then broken lines spaces else inline spaces

/-- Does the gap break the line by itself? -/
def isBroken : Gap → Bool
  | broken .. => true
  | _ => false

/-- The gap with at least so many blank lines where it breaks the line. -/
def withBlank (gap : Gap) (blank : Nat) : Gap :=
  match gap with
  | broken lines spaces => broken (max lines (Word.add blank 1)) spaces
  | gap => gap

end Gap

/-- The demands of a gap, sorted. -/
structure Demands where
  forced : Option (Nat × Nat) := none
  fixed : Option (Nat × Nat) := none
  soft : Option (Nat × LineStart) := none
  blank : Option Nat := none
deriving Repr

namespace Demands

/-- The demands with one more: the last of a sort counts, and the most blank lines. -/
def add (d : Demands) : Demand → Demands
  | .forced lines spaces => { d with forced := some (lines, spaces) }
  | .fixed lines spaces => { d with fixed := some (lines, spaces) }
  | .soft spaces start => { d with soft := some (spaces, start) }
  | .blank lines =>
    { d with
      blank := some (match d.blank with
        | some most => max most lines
        | none => lines) }

/-- The demands of the roles; an empty pair is fixed. -/
def ofRoles (v : GapView) (roles : List (Role × Bool)) : Demands :=
  let d := roles.foldl (fun d r => d.add (demand v r.2 r.1)) {}
  match emptyPair? v (roles.map Prod.fst) with
  | some counts => { d with fixed := some counts }
  | none => d

/-- The gap that the demands decide, blank lines aside. -/
def settle (d : Demands) (v : GapView) : Gap :=
  match d.forced, d.fixed, d.soft with
  | some (lines, spaces), _, _ => .ofCounts lines spaces
  | none, some (lines, spaces), _ => .ofCounts lines spaces
  | none, none, some (spaces, start) =>
    if v.oldNewlines > 0 then .broken (max v.keep 1) (v.lineStart start) else .inline spaces
  | none, none, none =>
    if v.oldNewlines > 0 then .broken (max v.keep 1) (v.lineStart .indent) else .kept

/-- A comment behind code keeps its distance: a line comment always, another one unless its gap is
fixed. -/
def keepsDistance (d : Demands) (v : GapView) (next : ItemKind) : Bool :=
  d.forced.isNone && v.oldNewlines == 0 && next.isComment &&
    (next == .lineComment || d.fixed.isNone)

end Demands

/-- The gap between a text and the next one.  Nothing may follow a line comment on its line. -/
def gapBetween (v : GapView) (roles : List (Role × Bool)) (prev : Option ItemKind)
    (next : ItemKind) : Gap :=
  let d := Demands.ofRoles v roles
  if d.keepsDistance v next then .kept
  else
    let gap := d.settle v
    let gap := match d.blank with
      | some blank => if d.forced.isNone then gap.withBlank blank else gap
      | none => gap
    if prev == some .lineComment && !gap.isBroken then .broken 1 v.indent else gap

/-- The gap after the last text: a line break if code ends here and the style asks for one, or if
the source has one. -/
def lastGap (style : Style) (prev : Option ItemKind) (old : String) : Gap :=
  let endsInCode := prev.any (· != .html)
  if (style.blankLines.eof && endsInCode) || Text.hasNewline old then .broken 1 0 else .kept

end CodeLayout.Render
