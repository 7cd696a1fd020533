import CodeLayout.Proofs.Stream.Padding
import Mathlib.Data.List.Forall2

/-!
# Indents

The width of a text adds up from the widths of its parts, each taken where the one before ends, and
an indent is as wide as it should be (`visualWidth_append_indentString`).  So the stars of a block comment
stand one column to the right of its slash once they are put there, and a second time moves nothing
(`reindent_projects`).
-/

namespace CodeLayout

open List
open Text (splitLines isTabOrSpace toList_repeated)

/-! ## Widths -/

namespace Style

variable (style : Style)

theorem columnAfter_eq (column : Nat) (text : String) :
    style.columnAfter column text = column + style.visualWidth text column := by
  have hle := style.le_foldl_advance text.toList column
  rw [visualWidth, columnAfter]
  omega

theorem visualWidth_append (a b : String) (column : Nat) :
    style.visualWidth (a ++ b) column =
      style.visualWidth a column + style.visualWidth b (column + style.visualWidth a column) := by
  have happend : style.columnAfter column (a ++ b) =
      style.columnAfter (style.columnAfter column a) b := by
    rw [columnAfter, String.toList_append, foldl_append]
    rfl
  rw [columnAfter_eq, columnAfter_eq, columnAfter_eq] at happend
  omega

/-- `indentString` at the start of a line is as wide as it should be. -/
theorem columnOf_append_indentString {cs : List Char} (hcs : Text.lastLine cs = []) (width : Nat) :
    style.columnOf (cs ++ (style.indentString width).toList) = width := by
  have hstart : style.columnOf cs = 0 := by rw [columnOf, hcs]; rfl
  rw [indentString]
  split
  · rw [toList_repeated, columnOf_append_spaces, hstart, Nat.zero_add]
  · next hspaces =>
    have htab : 0 < style.indent.tabSize := by
      rw [indentsWithSpaces] at hspaces
      simp at hspaces
      omega
    have htabs : style.columnOf (cs ++ List.replicate (width / style.indent.tabSize) '\t') =
        width / style.indent.tabSize * style.indent.tabSize := by
      rw [columnOf_append _ _ (by simp [mem_replicate]), hstart, ← toList_repeated]
      cases width / style.indent.tabSize with
      | zero => simp [Text.repeated]
      | succ n =>
        have hafter := columnAfter_tabs htab 0 n
        rwa [Nat.zero_div, Nat.zero_add] at hafter
    rw [String.toList_append, toList_repeated, toList_repeated, ← append_assoc,
      columnOf_append_spaces, htabs, Nat.div_add_mod']

theorem visualWidth_indentString (width : Nat) :
    style.visualWidth (style.indentString width) 0 = width := by
  have hwidth := style.columnOf_append_indentString (rfl : Text.lastLine [] = []) width
  rwa [columnOf_append _ _ fun h => nomatch Render.indentString_blank style width _ h] at hwidth

end Style

namespace Render

/-- `visualWidth` adds up, and `indentString` is exact at the start of a text and behind a line
feed. -/
theorem visualWidth_append_indentString (style : Style) :
    (∀ a b column, style.visualWidth (a ++ b) column =
      style.visualWidth a column + style.visualWidth b (column + style.visualWidth a column)) ∧
    ∀ width, trailingWidth style (style.indentString width) = width ∧
      ∀ text, trailingWidth style (text ++ "\n" ++ style.indentString width) = width := by
  refine ⟨style.visualWidth_append, fun width => ⟨?_, fun text => ?_⟩⟩
  · rw [trailingWidth_eq]
    exact style.columnOf_append_indentString (rfl : Text.lastLine [] = []) width
  · rw [trailingWidth_eq, String.toList_append]
    refine style.columnOf_append_indentString ?_ width
    rw [String.toList_append, Text.lastLine_append]
    rfl

/-! ## Lines of a comment -/

theorem mapTail_eq {f : List Char → List Char} {text : String} {first : List Char}
    {lines : List (List Char)} (h : splitLines text.toList = first :: lines) :
    mapTail f text = String.ofList (Text.joinLines (first :: lines.map f)) := by
  rw [mapTail, h]

/-- `splitLines` of `mapTail` are the lines that it has put there. -/
theorem splitLines_mapTail {f : List Char → List Char}
    (hf : ∀ line, '\n' ∉ line → '\n' ∉ f line) (text : String) :
    ∃ first lines, splitLines text.toList = first :: lines ∧
      splitLines (mapTail f text).toList = first :: lines.map f := by
  cases hlines : splitLines text.toList with
  | nil => exact absurd hlines (Text.splitLines_ne_nil _)
  | cons first lines =>
    refine ⟨first, lines, rfl, ?_⟩
    have hnone := Text.not_mem_splitLines text.toList
    rw [hlines, forall_mem_cons] at hnone
    rw [mapTail_eq hlines, String.toList_ofList, Text.splitLines_joinLines hnone.1]
    intro line hline
    obtain ⟨l, hl, rfl⟩ := mem_map.mp hline
    exact hf l (hnone.2 l hl)

variable {indent : List Char}

section

variable (hindent : ∀ c ∈ indent, isTabOrSpace c = true)

include hindent

theorem dropWhile_starLine (line : List Char) :
    (starLine indent line).dropWhile isTabOrSpace = line.dropWhile isTabOrSpace := by
  unfold starLine
  split
  · next hstar => rw [hstar, dropWhile_append_of_pos hindent]; rfl
  · rfl

theorem starLine_starLine (line : List Char) :
    starLine indent (starLine indent line) = starLine indent line := by
  rw [starLine, dropWhile_starLine hindent]
  split
  · next hstar => simp only [starLine, hstar]
  · rfl

theorem newline_not_mem_starLine {line : List Char} (hline : '\n' ∉ line) :
    '\n' ∉ starLine indent line := by
  rw [← takeWhile_append_dropWhile (p := isTabOrSpace) (l := starLine indent line),
    dropWhile_starLine hindent, mem_append, not_or]
  exact ⟨fun h => absurd (mem_takeWhile_imp h) (by decide), fun h => hline ((dropWhile_suffix _).mem h)⟩

end

/-- The stars of a comment behind `reindent` stand one column to the right of its slash, and nothing
else has changed: a second `reindent` changes nothing. -/
theorem reindent_projects (style : Style) (column : Nat) (text : String) :
    reindent style column (reindent style column text) = reindent style column text ∧
    (splitLines (reindent style column text).toList).length =
      (splitLines text.toList).length ∧
    (splitLines (reindent style column text).toList).head? =
      (splitLines text.toList).head? ∧
    Forall₂ (fun line line' =>
        line'.dropWhile isTabOrSpace = line.dropWhile isTabOrSpace ∧
        if (line.dropWhile isTabOrSpace).head? = some '*' then
          style.visualWidth (String.ofList (line'.takeWhile isTabOrSpace)) 0 = column + 1
        else line' = line)
      (splitLines text.toList).tail
      (splitLines (reindent style column text).toList).tail := by
  have hblank := indentString_blank style (column + 1)
  obtain ⟨first, lines, hlines, hlines'⟩ :=
    splitLines_mapTail (fun line => newline_not_mem_starLine hblank) text
  have htwice : starLine (style.indentString (column + 1)).toList ∘
      starLine (style.indentString (column + 1)).toList = starLine _ :=
    funext (starLine_starLine hblank)
  unfold reindent
  refine ⟨?_, ?_, ?_, ?_⟩
  · rw [mapTail_eq hlines', map_map, htwice, mapTail_eq hlines]
  · rw [hlines, hlines', length_cons, length_cons, length_map]
  · rw [hlines, hlines', head?_cons, head?_cons]
  · rw [hlines, hlines', tail_cons, tail_cons, forall₂_map_right_iff, forall₂_same]
    intro line _
    refine ⟨dropWhile_starLine hblank line, ?_⟩
    split
    · next hstar =>
      obtain ⟨rest, hrest⟩ := head?_eq_some_iff.mp hstar
      have hindent : (starLine (style.indentString (column + 1)).toList line).takeWhile
          isTabOrSpace = (style.indentString (column + 1)).toList := by
        simp only [starLine, hrest]
        rw [takeWhile_append_of_pos hblank]
        exact append_nil _
      rw [hindent, String.ofList_toList, style.visualWidth_indentString]
    · next hstar =>
      unfold starLine
      split
      · next hrest => exact absurd (by rw [hrest]; rfl) hstar
      · rfl

end Render

end CodeLayout
