import CodeLayout.Style.Basic

/-!
# Alignment groups

The members of an alignment group are operators that shall stand in one column.  Each member has the
column at which the text before its operator starts and the width of that text, if it fits on one
line.  When all members are measured, the widest end of every group is fixed, and the padding of a
member brings its operator to the column of the group.  Columns and widths are machine words, and
their sums are those of the machine as long as a line is shorter than `Word.limit`.
-/

namespace CodeLayout

/-- What a group lines up. -/
inductive GroupKind where
  | assignment | arrayInit | matchArm
deriving DecidableEq, Repr, Inhabited

/-- A member of a group. -/
structure MemberRef where
  group : Nat
  member : Nat
deriving DecidableEq, Repr, Inhabited

/-- The measure of a member. -/
structure Measure where
  /-- The column where the text before the operator starts. -/
  start : Nat
  /-- The width of that text; none if it does not fit on one line. -/
  width : Option Nat
deriving DecidableEq, Repr, Inhabited

/-- The column where the text before the operator ends. -/
def Measure.stop? (m : Measure) : Option Nat := m.width.map (m.start + ·)

/-- A group. -/
structure AlignGroup where
  kind : GroupKind
  members : Array Measure := #[]
  /-- The widest end of the members, once it is fixed. -/
  widest : Option Nat := none
deriving DecidableEq, Repr, Inhabited

/-- What stands between the text of a member and its operator. -/
inductive Padding where
  | spaces (n : Nat)
  | tabs (n : Nat)
deriving DecidableEq, Repr

/-- All groups of a source. -/
structure AlignTable where
  groups : Array AlignGroup := #[]
deriving DecidableEq, Repr, Inhabited

namespace AlignGroup

/-- The ends of the members that have one. -/
def stops (g : AlignGroup) : List Nat := g.members.toList.filterMap Measure.stop?

/-- Fix the widest end, if at least two members have one. -/
def fix (g : AlignGroup) : AlignGroup :=
  { g with widest := if 2 ≤ g.stops.length then g.stops.max? else none }

/-- Does the style line up groups of this kind? -/
def isEnabled (g : AlignGroup) (style : Style) : Bool :=
  match g.kind with
  | .assignment => style.align.groupAssignments
  | .arrayInit => style.align.groupArrayInit
  | .matchArm => style.align.groupMatchArms

end AlignGroup

namespace AlignTable

/-- Add an empty group and answer its number. -/
def newGroup (t : AlignTable) (kind : GroupKind) : AlignTable × Nat :=
  (⟨t.groups.push { kind }⟩, t.groups.size)

/-- Add a member to a group and answer it; no such group, no member. -/
def addMember (t : AlignTable) (group : Nat) (width : Option Nat) :
    AlignTable × Option MemberRef :=
  match t.groups[group]? with
  | none => (t, none)
  | some g =>
    (⟨t.groups.setIfInBounds group { g with members := g.members.push ⟨0, width⟩ }⟩,
      some ⟨group, g.members.size⟩)

/-- The number of members of a group. -/
def memberCount (t : AlignTable) (group : Nat) : Nat :=
  match t.groups[group]? with
  | none => 0
  | some g => g.members.size

/-- Replace the measure of a member, if there is such a member. -/
def setMeasure (t : AlignTable) (m : MemberRef) (measure : Measure) : AlignTable :=
  match t.groups[m.group]? with
  | none => t
  | some g =>
    ⟨t.groups.setIfInBounds m.group
      { g with members := g.members.setIfInBounds m.member measure }⟩

/-- Fix the widest end of every group. -/
def finalize (t : AlignTable) : AlignTable := ⟨t.groups.map AlignGroup.fix⟩

/-- The padding that brings the operator of a member to the column of its group; none if the member
is not lined up.  With tabs, the column is the first tab stop past the widest end. -/
def padding? (t : AlignTable) (m : MemberRef) (style : Style) : Option Padding := do
  let g ← t.groups[m.group]?
  if !g.isEnabled style then none
  let widest ← g.widest
  let stop ← (← g.members[m.member]?).stop?
  let tab := style.indent.tabSize
  if style.indent.expandTabs || tab == 0 then
    return .spaces (widest - stop)
  else
    let target := (widest / tab + 1) * tab
    return .tabs (target / tab - stop / tab)

end AlignTable

end CodeLayout
