import CodeLayout.Edit.Basic
import CodeLayout.Text.Blank

/-!
# Edits made smaller

An edit need not replace what its old and new texts have in common at their ends.  Inside a template
it is cut up further, so that every edit replaces characters of one class: line ends, other white
space, or anything else.
-/

namespace CodeLayout

/-- The characters that two lists have in common at their start. -/
def commonStart : List Char → List Char → List Char
  | a :: as, b :: bs => if a == b then a :: commonStart as bs else []
  | _, _ => []

namespace Edit

/-- The edit without what its old and new texts have in common at their ends; none if nothing is
left, or if the stretch is no slice. -/
def minimize? (source : String) (e : Edit) : Option Edit := do
  let old := (← e.old? source).toList
  let new := e.text.toList
  let front := commonStart old new
  let old := old.drop front.length
  let new := new.drop front.length
  let back := (commonStart old.reverse new.reverse).length
  let old := old.take (old.length - back)
  let new := new.take (new.length - back)
  if old.isEmpty && new.isEmpty then none
  else some ⟨e.offset + Text.sizeOfChars front, Text.sizeOfChars old, String.ofList new⟩

/-! ### Runs of characters -/

/-- The class of a character. -/
inductive CharClass where
  | newline | space | other
deriving DecidableEq, Repr

/-- Line ends, other white space, or anything else. -/
def classOf (c : Char) : CharClass :=
  if c == '\n' || c == '\r' then .newline
  else if Text.isWhiteSpace c then .space
  else .other

/-- The longest runs of characters of one class. -/
def runs : List Char → List (List Char)
  | [] => []
  | c :: cs =>
    match runs cs with
    | (d :: run) :: rest =>
      if classOf c == classOf d then (c :: d :: run) :: rest else [c] :: (d :: run) :: rest
    | rest => [c] :: rest

/-- One edit for each run that changes, from an offset on: runs are replaced one by one, those left
over are taken away, and new ones come in at the end. -/
def replaceRuns (offset : Nat) : List (List Char) → List (List Char) → List Edit
  | [], [] => []
  | [], new => [⟨offset, 0, String.ofList new.flatten⟩]
  | o :: old, [] =>
    ⟨offset, Text.sizeOfChars o, ""⟩ :: replaceRuns (offset + Text.sizeOfChars o) old []
  | o :: old, n :: new =>
    let rest := replaceRuns (offset + Text.sizeOfChars o) old new
    if o == n then rest else ⟨offset, Text.sizeOfChars o, String.ofList n⟩ :: rest

/-- The edit as edits that each replace one run. -/
def splitRuns (source : String) (e : Edit) : List Edit :=
  match e.old? source with
  | none => [e]
  | some old => replaceRuns e.offset (runs old.toList) (runs e.text.toList)

/-- The edits made small, those that start in the range, and the ones inside the template cut into
runs. -/
def finish (source : String) (range template : Option Span) (edits : List Edit) : List Edit :=
  let small := edits.filterMap (minimize? source)
  let inRange := small.filter fun e => range.all (·.contains e.offset)
  inRange.flatMap fun e =>
    match template with
    | some region =>
      if region.start ≤ e.offset && e.stop ≤ region.stop then splitRuns source e else [e]
    | none => [e]

end Edit

end CodeLayout
