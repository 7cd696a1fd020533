import CodeLayout.Proofs.Edit.Rewrite
import CodeLayout.Proofs.Format.Edits
import CodeLayout.Proofs.Render.Columns

/-!
# Where a pass stands

`Pass.trace` lists the states that a pass goes through, each with the offset up to which the source
has been written by then.  At each of them the edits known so far, applied to the source up to that
offset, give the text written so far, and the line and the column of the state are those at which
this text ends (`Pass.stands_of_mem_trace`).
-/

namespace CodeLayout

open List

/-! ## The edits of pieces -/

namespace Edit

variable {ps : List Render.Piece}

/-- `Rewrites` makes the new texts of pieces out of their old ones. -/
theorem rewrites_pieces {a : List Char} (hplaced : Placed (Text.sizeOfChars a) ps) :
    Rewrites a (ps.flatMap (·.old.toList)) (ps.filterMap Render.Piece.edit?)
      (ps.flatMap (·.new.toList)) := by
  induction ps generalizing a with
  | nil => exact .nil
  | cons p ps ih =>
    obtain ⟨hoffset, hlength, hplaced⟩ := hplaced
    rw [← Text.sizeOfChars_toList, ← Text.sizeOfChars_append] at hplaced
    have hrest := ih hplaced
    rw [flatMap_cons, flatMap_cons]
    by_cases hnew : p.new = p.old
    · have hedit : p.edit? = none := by rw [Render.Piece.edit?, if_pos (by simpa using hnew)]
      rw [filterMap_cons_none hedit, hnew]
      exact hrest.keep
    · have hedit : p.edit? = some ⟨p.offset, p.length, p.new⟩ := by
        rw [Render.Piece.edit?, if_neg (by simpa using hnew)]
      have hhere := Rewrites.here p.old.toList p.new.toList hrest
      rw [Text.sizeOfChars_toList, String.ofList_toList, ← hoffset, ← hlength] at hhere
      rw [filterMap_cons_some hedit]
      exact hhere

/-- `apply` makes the new texts of pieces out of the text that they make up. -/
theorem apply_pieces {text : String} (hplaced : Placed 0 ps)
    (htext : text.toList = ps.flatMap (·.old.toList)) :
    apply text (ps.filterMap Render.Piece.edit?) =
      .ok (String.ofList (ps.flatMap (·.new.toList))) := by
  have hwithin := within_pieces (a := []) hplaced rfl htext
  refine hwithin.apply_eq ?_
  rw [htext]
  exact rewrites_pieces (a := []) hplaced

theorem placed_concat {n : Nat} {p : Render.Piece} :
    Placed n (ps ++ [p]) ↔ Placed n ps ∧
      p.offset = n + Text.sizeOfChars (ps.flatMap (·.old.toList)) ∧
      p.length = Text.size p.old := by
  induction ps generalizing n with
  | nil => simp [Placed]
  | cons q ps ih =>
    simp only [cons_append, Placed, ih, flatMap_cons, Text.sizeOfChars_append,
      Text.sizeOfChars_toList, Nat.add_assoc, and_assoc]

end Edit

namespace Render

/-- The edits known so far. -/
def State.edits (s : State) : List Edit := s.pieces.toList.filterMap Piece.edit?

/-- The offset is a boundary of the source, and the edits known so far turn the source up to there
into a text that ends at the line and the column of the state. -/
def State.Stands (style : Style) (source : String) (n : Nat) (s : State) : Prop :=
  Text.isBoundary source n = true ∧ ∃ out, Edit.apply (Text.before source n) s.edits = .ok out ∧
    s.line = newlines out ∧ s.column = trailingWidth style out

/-! ## Steps of a pass -/

namespace Pass

/-- The states of a run, each with the offset up to which the source has been written: where an item
is reached, behind the gap in front of a text or of the end, and behind a text. -/
def traceFrom (p : Pass) (s : State) : List Item → List (Nat × State)
  | [] => (s.written, s) ::
    match p.writeGap s [] with
    | .ok s' => [(Text.size p.source, s')]
    | .error _ => []
  | i :: rest => (s.written, s) ::
    if i.kind.isText then
      match p.writeGap s (i :: rest) with
      | .ok s' => (i.offset, s') :: p.traceFrom (p.writeText s' i) rest
      | .error _ => []
    else p.traceFrom (s.addMark i) rest

/-- The states of a pass over all items. -/
def trace (p : Pass) (items : List Item) : List (Nat × State) :=
  p.traceFrom { base := p.style.indent.initialIndent } items

variable {p : Pass} {s s' : State} {items : List Item}

theorem written_writeText (i : Item) : (p.writeText s i).written = i.stop := by
  rw [State.written, prev_writeText]

/-- `traceFrom` ends in the last state of the run, with the whole source written. -/
theorem getLast?_traceFrom (h : p.renderFrom s items = .ok s') :
    (p.traceFrom s items).getLast? = some (Text.size p.source, s') := by
  induction items generalizing s with
  | nil =>
    rw [renderFrom] at h
    rw [traceFrom, h]
    rfl
  | cons i items ih =>
    rw [traceFrom]
    cases hkind : i.kind.isText with
    | true =>
      rw [renderFrom, if_pos hkind] at h
      cases hgap : p.writeGap s (i :: items) with
      | error e => rw [hgap] at h; cases h
      | ok s₁ =>
        rw [hgap] at h
        have hlast := ih (s := p.writeText s₁ i) h
        simp [getLast?_cons, hlast]
    | false =>
      rw [renderFrom_cons_mark hkind] at h
      simp [getLast?_cons, ih h]

/-! ## What holds along a run -/

/-- The pieces written so far make up the source up to the offset, and the place is tracked. -/
structure Follows (p : Pass) (n : Nat) (s : State) : Prop where
  placed : Edit.Placed 0 s.pieces.toList
  source : ∃ rest, p.source.toList = s.pieces.toList.flatMap (·.old.toList) ++ rest
  offset : Text.sizeOfChars (s.pieces.toList.flatMap (·.old.toList)) = n
  tracks : s.Tracks p.style

variable {n : Nat}

/-- A state that `Follows` the run `Stands` where the text ends that its edits make of the source.
-/
theorem Follows.stands (h : p.Follows n s) : s.Stands p.style p.source n := by
  obtain ⟨rest, hsource⟩ := h.source
  refine ⟨Text.isBoundary_iff.mpr ⟨_, rest, hsource, h.offset⟩, String.ofList s.output, ?_, ?_, ?_⟩
  · rw [← h.offset, Text.before_of_toList hsource]
    exact Edit.apply_pieces h.placed String.toList_ofList
  · rw [h.tracks.line, newlines, Text.occurrences, String.toList_ofList]
  · rw [h.tracks.column, trailingWidth_eq, String.toList_ofList]

/-- A piece that is written behind those before it keeps `Follows`. -/
theorem Follows.push (h : p.Follows n s) {q : Piece} (hq : q.offset = n)
    (hpieces : s'.pieces = s.pieces.push q) (htracks : s'.Tracks p.style)
    (hslice : Text.slice? p.source n (n + q.length) = some q.old) :
    p.Follows (n + q.length) s' := by
  obtain ⟨rest, hsource⟩ := h.source
  obtain ⟨as, cs, hcut, has, hlength⟩ := Text.slice?_eq_some_iff.mp hslice
  rw [append_assoc, hsource] at hcut
  obtain ⟨rfl, -⟩ := Text.append_inj_of_size hcut (h.offset.trans has.symm)
  have hlength : q.length = Text.size q.old := by omega
  have hold : s'.pieces.toList.flatMap (·.old.toList) =
      s.pieces.toList.flatMap (·.old.toList) ++ q.old.toList := by
    rw [hpieces, Array.toList_push, flatMap_append, flatMap_singleton]
  refine ⟨?_, ⟨cs, ?_⟩, ?_, htracks⟩
  · rw [hpieces, Array.toList_push, Edit.placed_concat, h.offset, Nat.zero_add]
    exact ⟨h.placed, hq, hlength⟩
  · rw [hold, hsource, append_assoc]
    exact hcut
  · rw [hold, Text.sizeOfChars_append, h.offset, Text.sizeOfChars_toList, hlength]

/-- `writeGap` leads up to the next text, or to the end. -/
theorem Follows.gap {ahead : List Item} (h : p.Follows s.written s)
    (hgap : p.writeGap s ahead = .ok s') : p.Follows (p.gapEnd ahead) s' := by
  obtain ⟨old, hslice, rfl⟩ := writeGap_eq_ok hgap
  obtain ⟨-, -, -, -, hend⟩ := Text.slice?_eq_some_iff.mp hslice
  rw [hend] at hslice ⊢
  exact h.push (q := p.gapPiece s s.written old ahead) rfl (p.pieces_afterGap ..)
    (tracks_afterGap h.tracks ..) hslice

/-- `renderFrom` goes on only from a boundary of the source. -/
theorem isBoundary_written (h : p.renderFrom s items = .ok s') :
    Text.isBoundary p.source s.written = true := by
  have hfollow : Item.follow Item.stop p.source s.written items = true := by
    by_contra hnot
    obtain ⟨_, _, _, herror⟩ := renderFrom_eq_error items s hnot
    rw [herror] at h
    cases h
  obtain ⟨as, cs, hsource, hsize⟩ := Item.exists_toList_of_follow hfollow
  exact Text.isBoundary_iff.mpr ⟨as, cs, hsource, hsize.symm⟩

/-- `writeText` leads up to where the run goes on. -/
theorem Follows.text {i : Item} (h : p.Follows i.offset s)
    (hrest : p.renderFrom (p.writeText s i) items = .ok s') :
    p.Follows i.stop (p.writeText s i) := by
  have hstart : Text.isBoundary p.source i.offset = true := h.stands.1
  have hstop : Text.isBoundary p.source i.stop = true :=
    written_writeText (p := p) (s := s) i ▸ isBoundary_written hrest
  refine h.push (q := p.textPiece s i) rfl (p.pieces_writeText ..) (tracks_writeText h.tracks i) ?_
  have hslice : Text.slice? p.source i.offset i.stop = some (i.text p.source) := by
    have hle : i.offset ≤ i.stop := Nat.le_add_right _ _
    rw [Item.text, Text.slice, Text.slice?, if_pos (by simp [hstart, hstop, hle])]
    rfl
  exact hslice

theorem Follows.mark (h : p.Follows n s) (i : Item) : p.Follows n (s.addMark i) := by
  have hpieces := (s.addMark_spec i).2
  exact ⟨hpieces ▸ h.placed, hpieces ▸ h.source, hpieces ▸ h.offset, h.tracks.addMark i⟩

/-- If the first state `Follows` a run, all of `traceFrom` do. -/
theorem follows_of_mem_traceFrom (hrun : p.renderFrom s items = .ok s')
    (hstart : p.Follows s.written s) :
    ∀ n t, (n, t) ∈ p.traceFrom s items → p.Follows n t := by
  induction items generalizing s with
  | nil =>
    intro n t hmem
    rw [renderFrom] at hrun
    rw [traceFrom, hrun] at hmem
    rcases mem_cons.mp hmem with heq | hmem
    · cases heq
      exact hstart
    · cases mem_singleton.mp hmem
      exact hstart.gap hrun
  | cons i items ih =>
    intro n t hmem
    rw [traceFrom] at hmem
    rcases mem_cons.mp hmem with heq | hmem
    · cases heq
      exact hstart
    cases hkind : i.kind.isText with
    | true =>
      rw [if_pos hkind] at hmem
      rw [renderFrom, if_pos hkind] at hrun
      cases hgap : p.writeGap s (i :: items) with
      | error e => rw [hgap] at hrun; cases hrun
      | ok s₁ =>
        rw [hgap] at hrun hmem
        have hreached : p.Follows i.offset s₁ := hstart.gap hgap
        have hwritten := hreached.text (i := i) hrun
        rcases mem_cons.mp hmem with heq | hmem
        · cases heq
          exact hreached
        · exact ih hrun (by rwa [written_writeText]) n t hmem
    | false =>
      rw [if_neg (by simp [hkind])] at hmem
      rw [renderFrom_cons_mark hkind] at hrun
      exact ih hrun (written_addMark s i ▸ hstart.mark i) n t hmem

/-- Every state of `trace` `Stands` where the text ends that the edits known so far make of the
source up to there. -/
theorem stands_of_mem_trace (hrun : p.render items = .ok s') {t : State}
    (hmem : (n, t) ∈ p.trace items) : t.Stands p.style p.source n := by
  refine (follows_of_mem_traceFrom hrun ?_ n t hmem).stands
  exact ⟨trivial, ⟨_, rfl⟩, rfl, .init _ _⟩

end Pass

end Render

/-- The second pass over a readable source knows at each of its states where the text ends that is
written by then, whatever the syntax and the style: the line is the number of line feeds in what the
edits known so far make of the source up to there, and the column is the width of its last line.  In
its last state the whole source is written. -/
theorem format_stands {source : String} {parsed : Parsed} (h : Parsed.ofSource source = .ok parsed)
    (style : Style) :
    ∃ stream first final, annotate source parsed style = .ok stream ∧
      (stream.measuringPass style source false).render stream.items.toList = .ok first ∧
      let pass := stream.liningPass style source false first.measures
      stream.render style source false = .ok final ∧
      (pass.trace stream.items.toList).getLast? = some (Text.size source, final) ∧
      ∀ n s, (n, s) ∈ pass.trace stream.items.toList → s.Stands style source n := by
  obtain ⟨stream, -, hannotate, hcovers⟩ := streamOf_eq_ok h style
  obtain ⟨first, final, hfirst, hfinal, hrender⟩ := stream.render_wrote style false hcovers
  refine ⟨stream, first, final, hannotate, hfirst.run, hrender, ?_, fun n s hmem => ?_⟩
  · exact Render.Pass.getLast?_traceFrom hfinal.run
  · exact Render.Pass.stands_of_mem_trace hfinal.run hmem

/-- Tabs, a comment of two lines and a call that is not closed: behind it, the pass stands in column
`2` of the fifth line. -/
theorem format_stands_tabs :
    let source := "<?php\n\t/*\n* a */\t$x=\t1; f("
    ∃ parsed stream first final, Parsed.ofSource source = .ok parsed ∧ parsed.errors ≠ [] ∧
      annotate source parsed {} = .ok stream ∧
      (stream.measuringPass {} source false).render stream.items.toList = .ok first ∧
      let pass := stream.liningPass {} source false first.measures
      stream.render {} source false = .ok final ∧
      (pass.trace stream.items.toList).getLast? = some (26, final) ∧
      (final.line, final.column) = (4, 2) ∧
      String.ofList final.output = "<?php\n\n/*\n * a */\t$x = 1;\nf(" ∧
      ∀ n s, (n, s) ∈ pass.trace stream.items.toList → s.Stands {} source n := by
  intro source
  have hcheck : (Parsed.ofSource source).toOption.any (fun parsed => !parsed.errors.isEmpty &&
      (annotate source parsed {}).toOption.any fun stream =>
        (stream.render {} source false).toOption.any fun final =>
          (final.line, final.column) == (4, 2) &&
          String.ofList final.output == "<?php\n\n/*\n * a */\t$x = 1;\nf(") = true := by
    decide +kernel
  obtain ⟨parsed, h, hcheck⟩ := exists_ok_of_any hcheck
  obtain ⟨stream, first, final, hstream, hfirst, hfinal, hlast, hall⟩ := format_stands h {}
  rw [hstream] at hcheck
  obtain ⟨herrors, hcheck⟩ := Bool.and_eq_true_iff.mp hcheck
  simp only [hfinal, Except.toOption, Option.any_some, Bool.and_eq_true, beq_iff_eq] at hcheck
  obtain ⟨hplace, houtput⟩ := hcheck
  refine ⟨parsed, stream, first, final, h, ?_, hstream, hfirst, hfinal, hlast, hplace, houtput, hall⟩
  simpa using herrors

end CodeLayout
