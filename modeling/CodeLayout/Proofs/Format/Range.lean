import CodeLayout.Proofs.Annotate.Complete
import CodeLayout.Proofs.Edit.Rewrite
import CodeLayout.Proofs.Format.Edits
import CodeLayout.Proofs.Render.Restrict

/-!
# Formatting parts of a source

Edits can be asked for in another form.  In a template they are cut into runs of characters, which
changes nothing about the text that they make (`formatEdits_template`).  For a range only those are
answered that start in it.  If the source has no syntax problems, nothing in it is kept verbatim, so
that the range does not matter for how it is laid out, and the edits are those of the whole source
that start in the range (`formatEdits_window`).
-/

namespace CodeLayout

open List
open Parsed (ofSource)

/-! ## Streams of readable sources -/

variable {source : String} {items : List Item} {stream : ItemStream} {style : Style}
  {parsed : Parsed}

/-- By `follow`, the texts among items that cover the rest of a source follow each other. -/
theorem Item.follow_of_covers {a g cs : List Char} (hsource : source.toList = a ++ g ++ cs)
    (hcovers : Covers (Text.sizeOfChars (a ++ g)) items cs) :
    Item.follow Item.stop source (Text.sizeOfChars a) items = true := by
  induction items generalizing a g cs with
  | nil =>
    cases hcovers
    have hslice := Text.slice?_of_toList hsource
    rw [append_nil] at hsource
    rw [follow, ← Text.sizeOfChars_toList source, hsource, Text.sizeOfChars_append, hslice]
    rfl
  | cons i items ih =>
    rw [follow]
    cases hcovers with
    | mark hkind _ hrest =>
      simp only [ItemKind.isMark, Bool.and_eq_true, Bool.not_eq_true'] at hkind
      rw [if_neg (by simp [hkind.1])]
      exact ih hsource hrest
    | @piece _ _ _ x cs hfits hoff hlen hrest =>
      rw [← Text.sizeOfChars_append] at hrest
      rcases hfits.2 with htext | ⟨hkind, -⟩
      · have hslice := Text.slice?_of_toList hsource
        rw [← Text.sizeOfChars_append, ← hoff] at hslice
        rw [if_pos htext, hslice, Item.stop, hoff, hlen, ← Text.sizeOfChars_append]
        rw [← append_nil (a ++ g ++ x)] at hrest
        exact ih (by rw [hsource]; simp) hrest
      · -- blanks belong to the gap before the next text
        have hnot : i.kind.isText = false := by
          rcases ItemKind.isBlank_eq_true_iff.mp hkind with h | h <;> rw [h] <;> rfl
        rw [if_neg (by simp [hnot])]
        rw [append_assoc] at hrest
        exact ih (by rw [hsource]; simp) hrest

/-- A stream that covers a source `fits` it. -/
theorem ItemStream.fits_of_covers (h : Covers 0 stream.items.toList source.toList) :
    stream.fits Item.stop source = true :=
  Item.follow_of_covers (a := []) (g := []) rfl h

/-- `formatEdits` answers `finish` of the edits of the pieces that are rendered. -/
theorem formatEdits_eq {s : Render.State} (range template : Option Span)
    (hstream : streamOf source style = .ok stream)
    (hrender : stream.render style source range.isSome = .ok s) :
    formatEdits source style range template =
      .ok (Edit.finish source range template (s.pieces.toList.filterMap Render.Piece.edit?)) := by
  rw [formatEdits, hstream]
  show stream.edits style source range template = _
  rw [ItemStream.edits, hrender]
  rfl

/-! ## Templates -/

/-- A template changes how edits are cut, but not what they make of a source: whatever the range and
the region, both lists of edits apply, with the same text as their result. -/
theorem formatEdits_template {source : String} {parsed : Parsed}
    (h : Parsed.ofSource source = .ok parsed) (style : Style) (range : Option Span)
    (region : Span) :
    ∃ cut whole t, formatEdits source style range (some region) = .ok cut ∧
      formatEdits source style range none = .ok whole ∧
      Edit.apply source cut = .ok t ∧ Edit.apply source whole = .ok t := by
  obtain ⟨stream, hstream, -, hcovers⟩ := streamOf_eq_ok h style
  obtain ⟨s, hrender, hplaced, hsource⟩ :=
    ItemStream.render_pieces (ItemStream.fits_of_covers hcovers) style range.isSome
  obtain ⟨t, hcut, hwhole⟩ := (Edit.within_pieces (a := []) hplaced rfl
    hsource).apply_finish_template range region
  exact ⟨_, _, t, formatEdits_eq _ _ hstream hrender, formatEdits_eq _ _ hstream hrender, hcut, hwhole⟩

/-- Trailing blanks, a line break and an indent are one edit, or three that replace a run each; the
source breaks off. -/
theorem formatEdits_template_runs : ∃ parsed t,
    Parsed.ofSource "<?php\n\n$é;\t\n  f(1;" = .ok parsed ∧ parsed.errors ≠ [] ∧
      formatEdits "<?php\n\n$é;\t\n  f(1;" {} (some ⟨3, 40⟩) none = .ok [⟨11, 4, "\n"⟩] ∧
      formatEdits "<?php\n\n$é;\t\n  f(1;" {} (some ⟨3, 40⟩) (some ⟨11, 15⟩) =
        .ok [⟨11, 1, "\n"⟩, ⟨12, 1, ""⟩, ⟨13, 2, ""⟩] ∧
      Edit.apply "<?php\n\n$é;\t\n  f(1;" [⟨11, 4, "\n"⟩] = .ok t ∧
      Edit.apply "<?php\n\n$é;\t\n  f(1;" [⟨11, 1, "\n"⟩, ⟨12, 1, ""⟩, ⟨13, 2, ""⟩] = .ok t := by
  have hparsed : (Parsed.ofSource "<?php\n\n$é;\t\n  f(1;").toOption.any
      (fun p => !p.errors.isEmpty) = true := by decide +kernel
  have hbulk : formatEdits "<?php\n\n$é;\t\n  f(1;" {} (some ⟨3, 40⟩) none =
      .ok [⟨11, 4, "\n"⟩] := by decide +kernel
  have hruns : formatEdits "<?php\n\n$é;\t\n  f(1;" {} (some ⟨3, 40⟩) (some ⟨11, 15⟩) =
      .ok [⟨11, 1, "\n"⟩, ⟨12, 1, ""⟩, ⟨13, 2, ""⟩] := by decide +kernel
  obtain ⟨parsed, h, hparsed⟩ := exists_ok_of_any hparsed
  obtain ⟨cut, whole, t, hcut, hwhole, happly, happly'⟩ :=
    formatEdits_template h {} (some ⟨3, 40⟩) ⟨11, 15⟩
  cases hruns.symm.trans hcut
  cases hbulk.symm.trans hwhole
  refine ⟨parsed, t, h, ?_, hbulk, hruns, happly', happly⟩
  simpa using hparsed

/-! ## Windows -/

/-- If nothing is kept `verbatim`, it does not matter whether such texts move. -/
theorem Render.Pass.renderFrom_movesVerbatim (p : Pass) (moves : Bool)
    (h : ∀ i ∈ items, i.kind ≠ .verbatim) (s : State) :
    { p with movesVerbatim := moves }.renderFrom s items = p.renderFrom s items := by
  induction items generalizing s with
  | nil => rfl
  | cons i items ih =>
    obtain ⟨hi, hitems⟩ := forall_mem_cons.mp h
    have htext (s : State) : { p with movesVerbatim := moves }.itemText s i = p.itemText s i := by
      unfold itemText
      dsimp only
      split
      · rfl
      · rfl
      · next hkind => exact absurd hkind hi
      · rfl
    have hwrite (s : State) :
        { p with movesVerbatim := moves }.writeText s i = p.writeText s i := by
      unfold writeText
      rw [htext]
      rfl
    rw [renderFrom, renderFrom]
    simp only [hwrite, ih hitems]
    rfl

/-- A stream without anything `verbatim` is rendered alike for a range and for the whole source. -/
theorem ItemStream.render_ranged (h : ∀ i ∈ stream.items.toList, i.kind ≠ .verbatim) (style : Style)
    (source : String) (ranged : Bool) :
    stream.render style source ranged = stream.render style source false := by
  have hpass (padding : MemberRef → Option Padding) :
      { stream.measuringPass style source ranged with padding }.render stream.items.toList =
        { stream.measuringPass style source false with padding }.render stream.items.toList :=
    Render.Pass.renderFrom_movesVerbatim
      { stream.measuringPass style source false with padding } ranged h _
  unfold render
  dsimp only
  rw [show (stream.measuringPass style source ranged).render _ =
    (stream.measuringPass style source false).render _ from hpass fun _ => none]
  exact bind_congr fun first => hpass _

namespace Edit

theorem finish_window (source : String) (window : Span) (es : List Edit) :
    finish source (some window) none es =
      (finish source none none es).filter fun e => window.contains e.offset := by
  simp [finish]

variable {es : List Edit}

/-- Edits in order whose start one of two adjacent windows `contains`. -/
theorem filter_contains_append (hordered : es.Pairwise fun d e => d.offset ≤ e.offset)
    {start mid stop : Nat} (hstart : start ≤ mid) (hstop : mid ≤ stop) :
    (es.filter fun e => (Span.mk start mid).contains e.offset) ++
        (es.filter fun e => (Span.mk mid stop).contains e.offset) =
      es.filter fun e => (Span.mk start stop).contains e.offset := by
  induction es with
  | nil => rfl
  | cons e es ih =>
    obtain ⟨hbehind, hordered⟩ := pairwise_cons.mp hordered
    have ih := ih hordered
    simp only [Span.contains, Bool.and_eq_true, decide_eq_true_eq, filter_cons] at ih ⊢
    by_cases hmid : e.offset < mid
    · rw [if_neg (c := mid ≤ e.offset ∧ _) (by omega)]
      by_cases hin : start ≤ e.offset
      · rw [if_pos ⟨hin, hmid⟩, if_pos ⟨hin, by omega⟩, cons_append, ih]
      · rw [if_neg (by omega), if_neg (by omega), ih]
    · -- what stands behind an edit of the second window starts in it too, or behind it
      have hnone : es.filter (fun e => decide (start ≤ e.offset) && decide (e.offset < mid)) =
          [] := by
        refine filter_eq_nil_iff.mpr fun d hd => ?_
        have := hbehind d hd
        simp only [Bool.and_eq_true, decide_eq_true_eq]
        omega
      rw [hnone] at ih ⊢
      rw [if_neg (c := start ≤ e.offset ∧ e.offset < mid) (by omega), nil_append]
      rw [nil_append] at ih
      rw [ih]
      congr 1
      simp only [eq_iff_iff]
      omega

/-- Edits `Within` a source leave a stretch at its start alone that they stand behind. -/
theorem Within.apply_keeps {source : String} {hi : Nat} {as cs : List Char}
    (h : Within source 0 hi es) (hsource : source.toList = as ++ cs)
    (habove : ∀ e ∈ es, Text.sizeOfChars as ≤ e.offset) :
    ∃ ds, apply source es = .ok (String.ofList (as ++ ds)) := by
  have hbehind : Within source (Text.sizeOfChars as) hi es :=
    ⟨h.slices, habove, h.below, h.ordered⟩
  obtain ⟨ds, hds⟩ := hbehind.rewrites hsource
  have hkeep := hds.keep (a := [])
  rw [← hsource] at hkeep
  exact ⟨ds, h.apply_eq hkeep⟩

end Edit

/-- `annotate` keeps nothing `verbatim` in a source without syntax problems. -/
theorem plain_of_annotate (h : ofSource source = .ok parsed) (herrors : parsed.errors = [])
    (hstream : annotate source parsed style = .ok stream) :
    ∀ i ∈ stream.items.toList, i.kind ≠ .verbatim := by
  obtain ⟨xs, -, rfl⟩ := Parsed.ofSource_eq_ok_iff.mp h
  exact annotate_plain herrors hstream

/-- The texts that `annotate` answers for a readable source are `Firm` in it. -/
theorem firm_of_annotate (h : ofSource source = .ok parsed)
    (hstream : annotate source parsed style = .ok stream) :
    ∀ i ∈ stream.items.toList.filter (·.kind.isText), i.kind.isText = true ∧ i.Firm source := by
  obtain ⟨xs, hlexes, rfl⟩ := Parsed.ofSource_eq_ok_iff.mp h
  obtain ⟨stream', hstream', -, hfirm⟩ := annotate_spec style hlexes
  cases hstream.symm.trans hstream'
  intro i hi
  rw [mem_filter] at hi
  exact ⟨hi.2, hfirm i hi.1⟩

/-- `formatEdits` of a source without syntax problems are finished in any range from the same ones.
-/
theorem formatEdits_eq_finish (h : ofSource source = .ok parsed)
    (herrors : parsed.errors = []) (style : Style) :
    ∃ es, Edit.Within source 0 (Text.size source) es ∧ ∀ range,
      formatEdits source style range none = .ok (Edit.finish source range none es) := by
  obtain ⟨stream, hstream, hannotate, hcovers⟩ := streamOf_eq_ok h style
  obtain ⟨s, hrender, hplaced, hsource⟩ :=
    ItemStream.render_pieces (ItemStream.fits_of_covers hcovers) style false
  have hplain := plain_of_annotate h herrors hannotate
  refine ⟨_, Edit.within_pieces (a := []) hplaced rfl hsource, fun range => ?_⟩
  exact formatEdits_eq range none hstream (by rw [ItemStream.render_ranged hplain, hrender])

/-- A source without syntax problems is formatted alike in any window: its edits are those of the
whole source that start in the window.  So what stands before the window stays, and the edits of
two adjacent windows are together those of both. -/
theorem formatEdits_window {source : String} {parsed : Parsed}
    (h : Parsed.ofSource source = .ok parsed) (herrors : parsed.errors = []) (style : Style) :
    ∃ edits, formatEdits source style none none = .ok edits ∧
      (∀ start stop, formatEdits source style (some ⟨start, stop⟩) none =
        .ok (edits.filter fun e => start ≤ e.offset && e.offset < stop)) ∧
      (∀ start stop cut as cs, formatEdits source style (some ⟨start, stop⟩) none = .ok cut →
        source.toList = as ++ cs → Text.sizeOfChars as ≤ start →
          ∃ ds, Edit.apply source cut = .ok (String.ofList (as ++ ds))) ∧
      ∀ start mid stop, start ≤ mid → mid ≤ stop →
        ∃ left right, formatEdits source style (some ⟨start, mid⟩) none = .ok left ∧
          formatEdits source style (some ⟨mid, stop⟩) none = .ok right ∧
          formatEdits source style (some ⟨start, stop⟩) none = .ok (left ++ right) := by
  obtain ⟨es, hwithin, hedits⟩ := formatEdits_eq_finish h herrors style
  have hwhole := hwithin.finish none none
  have hwindow (start stop : Nat) : formatEdits source style (some ⟨start, stop⟩) none =
      .ok ((Edit.finish source none none es).filter fun e =>
        (Span.mk start stop).contains e.offset) := by
    rw [hedits, Edit.finish_window]
  refine ⟨_, hedits none, hwindow, ?_, ?_⟩
  · intro start stop cut as cs hcut hsource hstart
    rw [hedits] at hcut
    cases hcut
    refine (hwithin.finish (some ⟨start, stop⟩) none).apply_keeps hsource fun e he => ?_
    rw [Edit.finish_window, List.mem_filter, Span.contains, Bool.and_eq_true,
      decide_eq_true_eq] at he
    exact hstart.trans he.2.1
  · intro start mid stop hstart hstop
    refine ⟨_, _, hwindow start mid, hwindow mid stop, ?_⟩
    rw [hwindow, Edit.filter_contains_append (hwhole.ordered.imp fun {d e} hde => ?_) hstart hstop]
    exact (Nat.le_add_right d.offset d.length).trans hde

/-- Two statements, in two windows that meet between them. -/
theorem formatEdits_window_statements : ∃ parsed ds,
    Parsed.ofSource "<?php\n\n$é=1;\n  $b=2;" = .ok parsed ∧ parsed.errors = [] ∧
      formatEdits "<?php\n\n$é=1;\n  $b=2;" {} (some ⟨0, 14⟩) none =
        .ok [⟨10, 0, " "⟩, ⟨11, 0, " "⟩] ∧
      formatEdits "<?php\n\n$é=1;\n  $b=2;" {} (some ⟨14, 99⟩) none =
        .ok [⟨14, 2, ""⟩, ⟨18, 0, " "⟩, ⟨19, 0, " "⟩] ∧
      formatEdits "<?php\n\n$é=1;\n  $b=2;" {} (some ⟨0, 99⟩) none =
        .ok [⟨10, 0, " "⟩, ⟨11, 0, " "⟩, ⟨14, 2, ""⟩, ⟨18, 0, " "⟩, ⟨19, 0, " "⟩] ∧
      Edit.apply "<?php\n\n$é=1;\n  $b=2;" [⟨14, 2, ""⟩, ⟨18, 0, " "⟩, ⟨19, 0, " "⟩] =
        .ok (String.ofList ("<?php\n\n$é=1;\n".toList ++ ds)) := by
  have hparsed : (Parsed.ofSource "<?php\n\n$é=1;\n  $b=2;").toOption.any
      (fun p => p.errors.isEmpty) = true := by decide +kernel
  have hbulk : formatEdits "<?php\n\n$é=1;\n  $b=2;" {} none none =
      .ok [⟨10, 0, " "⟩, ⟨11, 0, " "⟩, ⟨14, 2, ""⟩, ⟨18, 0, " "⟩, ⟨19, 0, " "⟩] := by
    decide +kernel
  obtain ⟨parsed, h, hparsed⟩ := exists_ok_of_any hparsed
  have herrors : parsed.errors = [] := by simpa using hparsed
  obtain ⟨edits, hedits, hwindow, hkeeps, hjoin⟩ := formatEdits_window h herrors {}
  cases hbulk.symm.trans hedits
  obtain ⟨left, right, hleft, hright, hboth⟩ := hjoin 0 14 99 (by decide) (by decide)
  cases hleft.symm.trans (hwindow 0 14)
  cases hright.symm.trans (hwindow 14 99)
  obtain ⟨ds, hds⟩ := hkeeps 14 99 _ "<?php\n\n$é=1;\n".toList "  $b=2;".toList hright
    (by decide) (by decide)
  exact ⟨parsed, ds, h, herrors, hleft, hright, hboth, hds⟩

end CodeLayout
