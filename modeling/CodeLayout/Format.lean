import CodeLayout.Annotate.Program
import CodeLayout.Edit.Minimal
import CodeLayout.Render.Pass

/-!
# Formatting

A stream is rendered twice: the first pass measures the members of the alignment groups, the second
one lines them up.  What the second pass changes is answered as edits.

`formatEdits` formats a source, syntax problems or not; `format` and `formatRange` apply the edits.
-/

namespace CodeLayout

namespace ItemStream

/-- The pass that writes a source without lining anything up. -/
def measuringPass (s : ItemStream) (style : Style) (source : String) (ranged : Bool) :
    Render.Pass where
  style := style
  source := source
  hasHtml := s.hasHtml
  movesVerbatim := ranged
  padding := fun _ => none

/-- The alignment groups with the measures that a pass has taken. -/
def measured (s : ItemStream) (measures : List (MemberRef × Measure)) : AlignTable :=
  (measures.foldl (fun t m => t.setMeasure m.1 m.2) s.groups).finalize

/-- The state after both passes over a source. -/
def render (s : ItemStream) (style : Style) (source : String) (ranged : Bool) :
    Except LayoutError Render.State := do
  let pass := s.measuringPass style source ranged
  let first ← pass.render s.items.toList
  let groups := s.measured first.measures
  { pass with padding := fun m => groups.padding? m style }.render s.items.toList

/-- The edits that lay a source out as the stream says: those in the range, with the ones inside the
template cut into runs of characters. -/
def edits (s : ItemStream) (style : Style) (source : String) (range template : Option Span) :
    Except LayoutError (List Edit) := do
  let final ← s.render style source range.isSome
  return Edit.finish source range template (final.pieces.toList.filterMap Render.Piece.edit?)

end ItemStream

/-- The annotated stream of a source. -/
def streamOf (source : String) (style : Style) : Except LayoutError ItemStream := do
  let parsed ← (Parsed.ofSource source).mapError .unreadable
  annotate source parsed style

/-- The edits that format a source. -/
def formatEdits (source : String) (style : Style) (range template : Option Span) :
    Except LayoutError (List Edit) := do
  let stream ← streamOf source style
  stream.edits style source range template

/-- Format a source. -/
def format (source : String) (style : Style) : Except LayoutError String := do
  Edit.apply source (← formatEdits source style none none)

/-- Format the part of a source between two offsets, which are moved down to boundaries. -/
def formatRange (source : String) (style : Style) (start stop : Nat) :
    Except LayoutError String := do
  let floor (offset : Nat) : Nat := Text.floorBoundary source (min offset (Text.size source))
  let start := floor start
  let stop := max (floor stop) start
  Edit.apply source (← formatEdits source style (some ⟨start, stop⟩) none)

/-- Answer the syntax problems of a source as an error. -/
def checkSyntax (source : String) : Except LayoutError Unit := do
  let parsed ← (Parsed.ofSource source).mapError .unreadable
  if !parsed.errors.isEmpty then .error (.malformed parsed.errors)

end CodeLayout
