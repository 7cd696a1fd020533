import CodeLayout.Proofs.Format.Range

/-!
# The whole source as a window

A window that holds a whole source does not hold the place behind it.  An edit starts there if it
puts something in at the end, and that is only the line break that a style may ask for behind code
(`lastText`): the other gaps have a text behind them, and a comment whose stars have moved does not
go on behind its end.  So formatting the window and formatting the source differ in that line break
and nothing else (`formatRange_whole`).
-/

namespace CodeLayout

open List
open Text (sizeOfChars sizeOfChars_append sizeOfChars_pos sizeOfChars_toList)
open Text (size)

namespace Render

variable {items : List Item} {source : String} {a : List Char}

/-- Behind the last text, `renderFrom` writes the last gap. -/
theorem Pass.renderFrom_last {p : Pass} {s s' : State} (h : p.renderFrom s items = .ok s') :
    ∃ t, t.prev = ((items.filter (·.kind.isText)).getLast?).or s.prev ∧
      p.writeGap t [] = .ok s' := by
  induction items generalizing s with
  | nil => exact ⟨s, rfl, h⟩
  | cons i items ih =>
    rw [renderFrom] at h
    split at h
    · next hkind =>
      cases hgap : p.writeGap s (i :: items) with
      | error e => rw [hgap] at h; cases h
      | ok s₁ =>
        rw [hgap] at h
        obtain ⟨t, hprev, ht⟩ := ih h
        refine ⟨t, ?_, ht⟩
        rw [hprev, prev_writeText, filter_cons_of_pos (by simpa using hkind),
          getLast?_cons]
        cases (items.filter (·.kind.isText)).getLast? <;> rfl
    · next hkind =>
      obtain ⟨t, hprev, ht⟩ := ih h
      refine ⟨t, ?_, ht⟩
      rw [hprev, (s.addMark_spec i).1, filter_cons_of_neg (by simpa using hkind)]

/-- What is written for the last gap, behind a text of the kind. -/
def lastText (style : Style) (prev : Option ItemKind) (old : String) : String :=
  if (style.blankLines.eof && prev.any (· != .html)) || Text.hasNewline old then "\n" else old

theorem Pass.gapText_lastGap (p : Pass) (align : Option MemberRef) (prev : Option ItemKind)
    (old : String) : p.gapText align old (lastGap p.style prev old) = lastText p.style prev old := by
  have hindent : p.style.indentString 0 = "" := by
    rw [Style.indentString]
    split
    · rfl
    · rw [Nat.zero_div, Nat.zero_mod]
      rfl
  unfold lastGap lastText
  dsimp only
  split
  · rw [gapText, hindent]
    rfl
  · rfl

/-- Before the last gap, every `small?` edit of a `Laid` source starts before its end. -/
theorem Laid.small?_lt {ps : List Piece} (h : Laid source items ps)
    (hfirm : ∀ i ∈ items, i.kind.isText = true ∧ i.Firm source)
    (hplaced : Edit.Placed (sizeOfChars a) ps)
    (hsource : source.toList = a ++ ps.flatMap (·.old.toList)) :
    ∀ p ∈ ps.dropLast, ∀ e, p.small? source = some e → e.offset < size source := by
  induction h generalizing a with
  | last => simp
  | @text i items p q ps hgap hoffset hlength _ hne htext hlaid ih =>
    obtain ⟨⟨hkind, hi⟩, hitems⟩ := forall_mem_cons.mp hfirm
    have hedges := edges_of_firm hi hkind hoffset hlength hplaced hsource
    obtain ⟨hpoffset, hplength, hqoffset, hqlength, hplaced⟩ := hplaced
    simp only [flatMap_cons] at hsource
    have hqsource : source.toList = a ++ p.old.toList ++ q.old.toList ++
        ps.flatMap (·.old.toList) := by rw [hsource]; simp
    have hqpos : 0 < sizeOfChars q.old.toList := sizeOfChars_pos (by simpa using hne)
    have hsize := congrArg sizeOfChars hsource
    simp only [sizeOfChars_append, sizeOfChars_toList] at hsize hqpos
    have hps : ps ≠ [] := by rintro rfl; cases hlaid
    rw [dropLast_cons_of_ne_nil (by simp), dropLast_cons_of_ne_nil hps]
    refine forall_mem_cons.mpr ⟨?_, forall_mem_cons.mpr ⟨?_, ?_⟩⟩
    · -- a text follows the gap
      intro e he
      have hlt := Piece.lt_or_append he hpoffset hplength (by rw [hsource, append_assoc])
      simp only [sizeOfChars_append, sizeOfChars_toList] at hlt
      omega
    · intro e he
      rcases Piece.lt_or_append he
          (by rw [hqoffset, sizeOfChars_append, sizeOfChars_toList]) hqlength hqsource
        with hlt | ⟨-, rest, hrest⟩
      · simp only [sizeOfChars_append, sizeOfChars_toList] at hlt
        omega
      · -- a text does not go on where it ended
        have hsame := htext.eq_of_append hedges.last
          (show q.new.toList ++ [] = q.old.toList ++ rest by rw [hrest, append_nil])
        exact absurd (String.toList_inj.mp hsame) (Piece.new_ne_old he)
    · refine ih hitems ?_ hqsource
      simpa only [sizeOfChars_append, sizeOfChars_toList] using hplaced

/-- `small?` of the last gap starts at the end of a source only if it puts in a line break there. -/
theorem Piece.lastText_restrict {style : Style} {prev : Option ItemKind} {p : Piece}
    (hsource : source.toList = a ++ p.old.toList) (hoffset : p.offset = sizeOfChars a)
    (hlength : p.length = size p.old) (hnew : p.new = lastText style prev p.old) :
    p.new = (p.restrict source fun e => e.offset < size source).new ++
      if style.blankLines.eof && prev.any (· != .html) && p.old == "" then "\n" else "" := by
  have hsource' : source.toList = a ++ p.old.toList ++ [] := by rw [append_nil, hsource]
  have hsize : size source = sizeOfChars (a ++ p.old.toList) := by
    rw [← hsource, sizeOfChars_toList]
  by_cases hold : p.old = ""
  · -- nothing stands there, so that any edit starts at the end
    cases hasks : style.blankLines.eof && prev.any (· != .html) with
    | true =>
      have hbreak : p.new = "\n" := by rw [hnew, lastText, hasks, Bool.true_or, if_pos rfl]
      obtain ⟨e, front, mid, -, back, he, hoff, hcut, -⟩ := small?_spec
        (by rw [hbreak, hold]; decide) hoffset hlength hsource'
      have hfront : front = [] := by
        rw [hold, String.toList_empty, append_assoc] at hcut
        exact (append_eq_nil_iff.mp hcut.symm).1
      have hend : e.offset = size source := by
        rw [hoff, hfront, hsize, hold, String.toList_empty]
      rw [restrict, he, if_neg (by simp [hend]), hold, hbreak]
      rfl
    | false =>
      have hkept : p.new = p.old := by
        rw [hnew, lastText, hasks, hold]
        rfl
      rw [restrict_eq_self (by simp [small?_eq_none hkept])]
      simp
  · have hself : p.restrict source (fun e => e.offset < size source) = p := by
      refine restrict_eq_self fun e he => ?_
      rcases lt_or_append he hoffset hlength hsource' with hlt | ⟨-, rest, hrest⟩
      · rwa [hsize, decide_eq_true_eq]
      · -- a line break goes on with nothing
        rw [hnew, lastText] at hrest
        refine absurd ?_ (new_ne_old he)
        rw [hnew, lastText]
        split at hrest
        · next hbreak =>
          rw [if_pos hbreak]
          rcases append_eq_singleton_iff.mp hrest with ⟨hnil, -⟩ | ⟨hone, -⟩
          · exact absurd (by simpa using hnil) hold
          · exact String.toList_inj.mp hone.symm
        · next hkept => rw [if_neg hkept]
    rw [hself]
    simp [hold]

end Render

theorem Edit.Placed.of_append {n : Nat} {ps qs : List Render.Piece} (h : Placed n (ps ++ qs)) :
    Placed (n + sizeOfChars (ps.flatMap (·.old.toList))) qs := by
  induction ps generalizing n with
  | nil => exact h
  | cons p ps ih =>
    rw [flatMap_cons, sizeOfChars_append, sizeOfChars_toList, ← Nat.add_assoc]
    exact ih h.2.2

/-- The last piece of `render` is the gap behind the last text. -/
theorem Render.Pass.render_last {p : Pass} {items : List Item} {s : State} (h : p.render items = .ok s) :
    ∃ body last, s.pieces.toList = body ++ [last] ∧
      size p.source =
        ((items.filter (·.kind.isText)).getLast?).elim 0 Item.stop + size last.old ∧
      last.new =
        lastText p.style (((items.filter (·.kind.isText)).getLast?).map Item.kind) last.old := by
  obtain ⟨t, hprev, hgap⟩ := renderFrom_last h
  rw [Option.or_none] at hprev
  by_cases hslice : (Text.slice? p.source t.written (p.gapEnd [])).isSome = true
  · obtain ⟨a, g, cs, hsource, hwritten, hend⟩ := Text.exists_toList_of_slice? hslice
    rw [sizeOfChars_append] at hend
    rw [p.writeGap_eq hsource hwritten hend] at hgap
    cases hgap
    refine ⟨t.pieces.toList, p.gapPiece t (sizeOfChars a) (String.ofList g) [], ?_, ?_, ?_⟩
    · rw [pieces_afterGap, Array.toList_push]
    · rw [← hprev]
      show p.gapEnd [] = _
      rw [hend, ← hwritten, State.written, gapPiece, Text.size_ofList]
      cases t.prev <;> rfl
    · rw [← hprev, ← p.gapText_lastGap t.marks.align]
      rfl
  · obtain ⟨_, _, _, herror⟩ := writeGap_eq_error [] hslice
    rw [herror] at hgap
    cases hgap

variable {stream : ItemStream} {source : String}

/-- The last piece of a stream is the gap behind its last text, as `lastText` has it. -/
theorem ItemStream.render_last {style : Style} {ranged : Bool} {s : Render.State}
    (h : stream.render style source ranged = .ok s) :
    ∃ body last, s.pieces.toList = body ++ [last] ∧
      size source = ((stream.items.toList.filter (·.kind.isText)).getLast?).elim 0 Item.stop +
        size last.old ∧
      last.new = Render.lastText style
        (((stream.items.toList.filter (·.kind.isText)).getLast?).map Item.kind) last.old := by
  unfold render at h
  dsimp only at h
  cases hfirst : (stream.measuringPass style source ranged).render stream.items.toList with
  | error e => rw [hfirst] at h; cases h
  | ok first =>
    rw [hfirst] at h
    exact Render.Pass.render_last h

/-- The source ends with a text that is no markup, without blanks behind it. -/
def ItemStream.endsInCode (stream : ItemStream) (source : String) : Bool :=
  ((stream.items.toList.filter (·.kind.isText)).getLast?).any fun i =>
    i.kind != .html && i.stop == size source

theorem ItemStream.endsInCode_eq {old : String} (hsize : size source =
      ((stream.items.toList.filter (·.kind.isText)).getLast?).elim 0 Item.stop + size old) :
    stream.endsInCode source =
      ((((stream.items.toList.filter (·.kind.isText)).getLast?).map Item.kind).any (· != .html) &&
        old == "") := by
  rw [endsInCode]
  cases hlast : (stream.items.toList.filter (·.kind.isText)).getLast? with
  | none => rfl
  | some i =>
    rw [hlast] at hsize
    have hstop : (i.stop == size source) = (old == "") := by
      rw [hsize, Bool.eq_iff_iff, beq_iff_eq, beq_iff_eq]
      constructor
      · intro hend
        by_contra hne
        have hpos : 0 < sizeOfChars old.toList := sizeOfChars_pos (by simpa using hne)
        rw [sizeOfChars_toList] at hpos
        simp only [Option.elim_some] at hend
        omega
      · rintro rfl
        rfl
    simp [hstop]

/-- `formatRange` up to the end of a source is a window on all of it. -/
theorem formatRange_eq {stop : Nat} (style : Style) (hstop : size source ≤ stop) :
    formatRange source style 0 stop =
      (do Edit.apply source (← formatEdits source style (some ⟨0, size source⟩) none)) := by
  rw [formatRange]
  dsimp only
  rw [Nat.min_eq_right hstop, Text.floorBoundary_of_isBoundary (Text.isBoundary_size source), Nat.zero_min,
    show Text.floorBoundary source 0 = 0 from rfl, Nat.max_zero]

/-- Formatting a range that holds a whole source without syntax problems is formatting the source,
but for the line break that the style asks for behind code at its end. -/
theorem formatRange_whole {source : String} {parsed : Parsed}
    (h : Parsed.ofSource source = .ok parsed) (herrors : parsed.errors = []) (style : Style)
    (stop : Nat) (hstop : Text.size source ≤ stop) :
    ∃ stream t, annotate source parsed style = .ok stream ∧
      formatRange source style 0 stop = .ok t ∧
      format source style =
        .ok (t ++ if style.blankLines.eof && stream.endsInCode source then "\n" else "") := by
  obtain ⟨stream, hstream, hannotate, hcovers⟩ := streamOf_eq_ok h style
  obtain ⟨s, hrender, hplaced, hold, hlaid⟩ := stream.render_laid style hcovers
  have hranged (ranged : Bool) : stream.render style source ranged = .ok s := by
    rw [ItemStream.render_ranged (plain_of_annotate h herrors hannotate), hrender]
  have hedits (range : Option Span) := formatEdits_eq range none hstream (hranged range.isSome)
  have hwhole := Edit.apply_finish hplaced hold.symm
  have hwindow := Edit.apply_finish_range hplaced hold.symm (some ⟨0, Text.size source⟩)
  have htest : (fun e : Edit => (some (Span.mk 0 (Text.size source))).all (·.contains e.offset)) =
      fun e => decide (e.offset < Text.size source) := by
    funext e
    simp [Span.contains]
  rw [htest] at hwindow
  refine ⟨stream, _, hannotate, by rw [formatRange_eq style hstop, hedits]; exact hwindow, ?_⟩
  rw [format, hedits]
  refine hwhole.trans (congrArg Except.ok ?_)
  -- the pieces before the last one are those of the window
  have hlt := hlaid.small?_lt (a := []) (firm_of_annotate h hannotate) hplaced hold.symm
  obtain ⟨body, last, hpieces, hsize, hlast⟩ := stream.render_last hrender
  rw [hpieces] at hplaced hold hlt ⊢
  have hbody : body.map (Render.Piece.restrict source fun e => e.offset < Text.size source) =
      body := by
    refine (List.map_congr_left fun p hp => ?_).trans (List.map_id body)
    rw [List.dropLast_concat] at hlt
    exact Render.Piece.restrict_eq_self fun e he => decide_eq_true (hlt p hp e he)
  obtain ⟨hoffset, hlength, -⟩ := hplaced.of_append
  rw [Nat.zero_add] at hoffset
  rw [List.flatMap_append, List.flatMap_singleton] at hold
  have hnew := Render.Piece.lastText_restrict hold.symm hoffset hlength hlast
  rw [Bool.and_assoc, ← ItemStream.endsInCode_eq hsize] at hnew
  rw [List.map_append, hbody, List.flatMap_append, List.flatMap_append, String.ofList_append,
    String.ofList_append, String.append_assoc]
  simpa using hnew

/-- A comment at the end of a source, and a style that asks for a line break behind it. -/
theorem formatRange_whole_comment : ∃ parsed stream,
    Parsed.ofSource "<?php\n\n$é=1; // x " = .ok parsed ∧ parsed.errors = [] ∧
      annotate "<?php\n\n$é=1; // x " parsed { blankLines := { eof := true } } = .ok stream ∧
      stream.endsInCode "<?php\n\n$é=1; // x " = true ∧
      formatRange "<?php\n\n$é=1; // x " { blankLines := { eof := true } } 0 99 =
        .ok "<?php\n\n$é = 1; // x " ∧
      format "<?php\n\n$é=1; // x " { blankLines := { eof := true } } =
        .ok "<?php\n\n$é = 1; // x \n" := by
  have hparsed : (Parsed.ofSource "<?php\n\n$é=1; // x ").toOption.any
      (fun p => p.errors.isEmpty) = true := by decide +kernel
  have hends : (streamOf "<?php\n\n$é=1; // x " { blankLines := { eof := true } }).toOption.any
      (·.endsInCode "<?php\n\n$é=1; // x ") = true := by decide +kernel
  have hrendered : rendered "<?php\n\n$é=1; // x " { blankLines := { eof := true } } =
      .ok "<?php\n\n$é = 1; // x \n" := by decide +kernel
  obtain ⟨parsed, h, hparsed⟩ := exists_ok_of_any hparsed
  have herrors : parsed.errors = [] := by simpa using hparsed
  obtain ⟨stream, t, hstream, ht, hformat⟩ := formatRange_whole h herrors
    { blankLines := { eof := true } } 99 (by decide)
  have hstreamOf : streamOf "<?php\n\n$é=1; // x " { blankLines := { eof := true } } =
      .ok stream := by
    rw [streamOf, h]
    exact hstream
  rw [hstreamOf] at hends
  have hends' : stream.endsInCode "<?php\n\n$é=1; // x " = true := hends
  rw [hends', format_eq_rendered, hrendered] at hformat
  have htext : "<?php\n\n$é = 1; // x " = t := by
    have hlist := congrArg String.toList (Except.ok.inj hformat)
    rw [String.toList_append] at hlist
    exact String.toList_inj.mp (List.append_cancel_right
      (show "<?php\n\n$é = 1; // x ".toList ++ ['\n'] = t.toList ++ ['\n'] from hlist))
  rw [← htext] at ht
  exact ⟨parsed, stream, h, herrors, hstream, hends', ht, by
    rw [format_eq_rendered, hrendered]⟩

/-- A source that ends in code gets a line break at its end if the style asks for one, but not as a
range: the place behind the source is not in it. -/
theorem formatRange_misses_line_break : ∃ parsed,
    Parsed.ofSource "<?php\n\n$a = 1;" = .ok parsed ∧ parsed.errors = [] ∧
      format "<?php\n\n$a = 1;" { blankLines := { eof := true } } = .ok "<?php\n\n$a = 1;\n" ∧
      formatRange "<?php\n\n$a = 1;" { blankLines := { eof := true } } 0 14 =
        .ok "<?php\n\n$a = 1;" := by
  have hparsed : (Parsed.ofSource "<?php\n\n$a = 1;").toOption.any
      (fun p => p.errors.isEmpty) = true := by decide +kernel
  have hedits : formatEdits "<?php\n\n$a = 1;" { blankLines := { eof := true } }
      (some ⟨0, Text.size "<?php\n\n$a = 1;"⟩) none = .ok [] := by decide +kernel
  obtain ⟨parsed, h, hparsed⟩ := exists_ok_of_any hparsed
  refine ⟨parsed, h, by simpa using hparsed, ?_, ?_⟩
  · rw [format_eq_rendered]
    decide +kernel
  · rw [formatRange_eq _ (by decide), hedits]
    exact Edit.apply_nil _

end CodeLayout
