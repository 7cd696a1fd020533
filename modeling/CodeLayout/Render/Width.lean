import CodeLayout.Stream.Item
import CodeLayout.Style.Query
import CodeLayout.Text.Lines

/-!
# Widths of what is written

How far a text reaches on its last line, how deep a line of the source is indented, and how much
text follows before a line may be broken again.
-/

namespace CodeLayout.Render

/-- The number of line feeds of a text. -/
def newlines (text : String) : Nat := Text.occurrences text '\n'

/-- The width of the last line of a text. -/
def trailingWidth (style : Style) (text : String) : Nat :=
  style.visualWidth (String.ofList (Text.lastLine text.toList)) 0

/-- The width of the indent of the source line that holds the offset. -/
def lineIndentAt (style : Style) (source : String) (offset : Nat) : Nat :=
  let offset := min offset (Text.size source)
  let start := Text.lastLine (Text.before source offset).toList
  let line := start ++ Text.firstLine (Text.after source offset).toList
  style.visualWidth (String.ofList (line.takeWhile Text.isTabOrSpace)) 0

/-- May a line be broken at a gap with the role? -/
def isBreakOpportunity : Role → Bool
  | .inList _ | .breakList | .beforeOp _ | .afterOp _ | .inChainedMethodCalls
  | .beforeStatement | .beforeExtends | .beforeImplements | .bodyWithoutBraces _
  | .afterLeftBrace _ | .beforeRightBrace _ => true
  | _ => false

/-- How far the measuring of a sequence has come. -/
structure Reach where
  width : Nat := 0
  texts : Nat := 0
  /-- A gap lies between the last text and the next one. -/
  gap : Bool := false

namespace Reach

/-- The width with the gap before the next text. -/
def padded (r : Reach) : Nat := if r.gap && r.width > 0 then r.width + 1 else r.width

end Reach

/-- The width of the items up to the next place where a line may be broken.  A stretch that may not
be broken is measured whole; with `through`, so is the gap after the first text, which measures an
operator together with its operand. -/
def sequenceWidth (style : Style) (source : String) (through : Bool) (r : Reach) :
    List Item → Nat
  | [] => r.width
  | i :: rest =>
    match i.kind with
    | .role role =>
      if i.breakable && isBreakOpportunity role && r.width > 0 && !(through && r.texts == 1) then
        r.width
      else sequenceWidth style source through { r with gap := true } rest
    | .blanks | .lineBreak => sequenceWidth style source through { r with gap := true } rest
    | kind =>
      if kind.isText then
        let text := i.text source
        let width := r.padded + style.visualWidth (String.ofList (Text.firstLine text.toList)) 0
        if Text.hasNewline text || kind == .lineComment then width
        else sequenceWidth style source through ⟨width, r.texts + 1, false⟩ rest
      else sequenceWidth style source through r rest

end CodeLayout.Render
