import CodeLayout.Format
import CodeLayout.Proofs.Annotate.Program
import CodeLayout.Proofs.Render.Relaid

/-!
# Formatting keeps the content

Formatting a readable source succeeds, whatever its syntax and the style, and changes nothing but
the blanks between its texts and those in front of the stars of its comments.
-/

namespace CodeLayout

/-- What a pass writes for a source that a stream covers: its gaps and texts. -/
structure ItemStream.Wrote (stream : ItemStream) (p : Render.Pass) (s : Render.State) : Prop where
  run : p.render stream.items.toList = .ok s
  placed : Edit.Placed 0 s.pieces.toList
  old_eq : s.pieces.toList.flatMap (·.old.toList) = p.source.toList
  pieced : p.Pieced (stream.items.toList.filter (·.kind.isText)) s.pieces.toList

/-- The pass that lines up what has been measured. -/
def ItemStream.liningPass (s : ItemStream) (style : Style) (source : String) (ranged : Bool)
    (measures : List (MemberRef × Measure)) : Render.Pass :=
  { s.measuringPass style source ranged with
    padding := fun m => (s.measured measures).padding? m style }

variable {stream : ItemStream} {source : String}

/-- Both passes over items that cover a source succeed, and each `Wrote` it. -/
theorem ItemStream.render_wrote (style : Style) (ranged : Bool)
    (hcovers : Covers 0 stream.items.toList source.toList) :
    ∃ first final, stream.Wrote (stream.measuringPass style source ranged) first ∧
      stream.Wrote (stream.liningPass style source ranged first.measures) final ∧
      stream.render style source ranged = .ok final := by
  have hwrote (padding : MemberRef → Option Padding) :
      ∃ s, stream.Wrote { stream.measuringPass style source ranged with padding } s := by
    obtain ⟨s, hrun, hplaced, hold, hpieced⟩ := Render.Pass.render_pieced
      (p := { stream.measuringPass style source ranged with padding }) hcovers
    exact ⟨s, hrun, hplaced, hold, hpieced⟩
  obtain ⟨first, hfirst⟩ := hwrote fun _ => none
  obtain ⟨final, hfinal⟩ := hwrote fun m => (stream.measured first.measures).padding? m style
  refine ⟨first, final, hfirst, hfinal, ?_⟩
  unfold render
  dsimp only
  rw [show (stream.measuringPass style source ranged).render _ = .ok first from hfirst.run]
  exact hfinal.run

/-- Both passes over items that cover a source succeed, and the pieces of the second one are
`Pieced`. -/
theorem ItemStream.render_pieced (style : Style) (ranged : Bool)
    (hcovers : Covers 0 stream.items.toList source.toList) :
    ∃ s padding, stream.render style source ranged = .ok s ∧ Edit.Placed 0 s.pieces.toList ∧
      s.pieces.toList.flatMap (·.old.toList) = source.toList ∧
      Render.Pass.Pieced { stream.measuringPass style source ranged with padding }
        (stream.items.toList.filter (·.kind.isText)) s.pieces.toList := by
  obtain ⟨first, final, -, hfinal, hrender⟩ := stream.render_wrote style ranged hcovers
  exact ⟨final, _, hrender, hfinal.placed, hfinal.old_eq, hfinal.pieced⟩

/-- Both passes over items that cover a source succeed, and the source is `Laid` out. -/
theorem ItemStream.render_laid (style : Style)
    (hcovers : Covers 0 stream.items.toList source.toList) :
    ∃ s, stream.render style source false = .ok s ∧ Edit.Placed 0 s.pieces.toList ∧
      s.pieces.toList.flatMap (·.old.toList) = source.toList ∧
      Render.Laid source (stream.items.toList.filter (·.kind.isText)) s.pieces.toList := by
  obtain ⟨s, padding, hrender, hplaced, hold, hpieced⟩ := stream.render_pieced style false hcovers
  exact ⟨s, hrender, hplaced, hold, hpieced.laid rfl⟩

/-- Both passes over items that cover a source succeed, and the edits of the second one apply.  The
source is `Relaid`. -/
theorem ItemStream.render_relaid (style : Style)
    (hcovers : Covers 0 stream.items.toList source.toList) :
    ∃ s, stream.render style source false = .ok s ∧
      Edit.apply source
          (Edit.finish source none none (s.pieces.toList.filterMap Render.Piece.edit?)) =
        .ok (String.ofList (s.pieces.toList.flatMap (·.new.toList))) ∧
      Render.Relaid source (stream.items.toList.filter (·.kind.isText)) source.toList
        (s.pieces.toList.flatMap (·.new.toList)) := by
  obtain ⟨s, hrender, hplaced, hold, hlaid⟩ := stream.render_laid style hcovers
  refine ⟨s, hrender, Edit.apply_finish hplaced hold.symm, ?_⟩
  rw [← hold]
  exact hlaid.relaid

/-- What the second pass over a source writes. -/
def rendered (source : String) (style : Style) : Except LayoutError String := do
  let stream ← streamOf source style
  let final ← stream.render style source false
  return String.ofList (final.pieces.toList.flatMap (·.new.toList))

/-- `streamOf` a readable source covers it. -/
theorem streamOf_eq_ok {parsed : Parsed} (h : Parsed.ofSource source = .ok parsed) (style : Style) :
    ∃ stream, streamOf source style = .ok stream ∧ annotate source parsed style = .ok stream ∧
      Covers 0 stream.items.toList source.toList := by
  obtain ⟨xs, hlexes, rfl⟩ := Parsed.ofSource_eq_ok_iff.mp h
  obtain ⟨stream, hstream, hcovers, -⟩ := annotate_spec style hlexes
  refine ⟨stream, ?_, hstream, hcovers⟩
  rw [streamOf, h]
  exact hstream

/-- `format` answers what the passes have `rendered`: cutting it into edits, making them small and
applying them changes nothing. -/
theorem format_eq_rendered (source : String) (style : Style) :
    format source style = rendered source style := by
  cases h : Parsed.ofSource source with
  | error e => simp [format, formatEdits, rendered, streamOf, h, Except.mapError, bind, Except.bind]
  | ok parsed =>
    obtain ⟨stream, hstream, -, hcovers⟩ := streamOf_eq_ok h style
    obtain ⟨s, hrender, happly, -⟩ := stream.render_relaid style hcovers
    have hedits : formatEdits source style none none =
        .ok (Edit.finish source none none (s.pieces.toList.filterMap Render.Piece.edit?)) := by
      simp [formatEdits, ItemStream.edits, hstream, hrender, bind, Except.bind, pure,
        Except.pure]
    rw [format, rendered, hedits, hstream]
    simp only [bind, Except.bind]
    rw [happly, hrender]
    rfl

/-- A readable source is formatted, well-formed or not and whatever the style.  Between its texts,
gaps of blanks are kept or replaced by line feeds, spaces and tabs; the texts are copied, but the
stars of block comments may move along their lines.  So without blanks nothing has changed. -/
theorem format_relaid {source : String} {parsed : Parsed} (h : Parsed.ofSource source = .ok parsed)
    (style : Style) :
    ∃ stream t, annotate source parsed style = .ok stream ∧ format source style = .ok t ∧
      Render.Relaid source (stream.items.toList.filter (·.kind.isText)) source.toList t.toList ∧
      ∀ keep : Char → Bool, (∀ c, Lexeme.isBlank c = true → keep c = false) →
        source.toList.filter keep = t.toList.filter keep := by
  obtain ⟨stream, hstream, hannotate, hcovers⟩ := streamOf_eq_ok h style
  obtain ⟨s, hrender, -, hrelaid⟩ := stream.render_relaid style hcovers
  rw [← String.toList_ofList (l := s.pieces.toList.flatMap (·.new.toList))] at hrelaid
  refine ⟨stream, _, hannotate, ?_, hrelaid, fun keep hkeep => hrelaid.filter_eq hkeep⟩
  rw [format_eq_rendered, rendered, hstream]
  simp only [bind, Except.bind]
  rw [hrender]
  rfl

/-- A comment whose stars move, in a source that breaks off. -/
theorem format_relaid_comment : ∃ parsed stream t,
    Parsed.ofSource "<?php\n\n  /*\n* a */ f(1;" = .ok parsed ∧ parsed.errors ≠ [] ∧
      annotate "<?php\n\n  /*\n* a */ f(1;" parsed {} = .ok stream ∧
      format "<?php\n\n  /*\n* a */ f(1;" {} = .ok t ∧ t = "<?php\n\n/*\n * a */ f(1;" ∧
      Render.Relaid "<?php\n\n  /*\n* a */ f(1;" (stream.items.toList.filter (·.kind.isText))
        "<?php\n\n  /*\n* a */ f(1;".toList t.toList := by
  have hparsed : (Parsed.ofSource "<?php\n\n  /*\n* a */ f(1;").toOption.any
      (fun p => !p.errors.isEmpty) = true := by decide +kernel
  have hformat : rendered "<?php\n\n  /*\n* a */ f(1;" {} = .ok "<?php\n\n/*\n * a */ f(1;" := by
    decide +kernel
  obtain ⟨parsed, h, hparsed⟩ := exists_ok_of_any hparsed
  obtain ⟨stream, t, hstream, ht, hrelaid, -⟩ := format_relaid h {}
  refine ⟨parsed, stream, t, h, ?_, hstream, ht, ?_, hrelaid⟩
  · simpa using hparsed
  · rw [format_eq_rendered, hformat] at ht
    exact (Except.ok.inj ht).symm

/-! ## What formatting does not keep -/

/-- The kinds of the tokens of a text that are neither trivia nor its end. -/
def significantKinds (source : String) : Except LexError (List TokenKind) := do
  return ((← tokenize source).toList.filter Significant.isSeen).map Token.kind

/-- Blanks may be all that keeps tokens apart: the name of a type that stands alone between
parentheses, on a line of its own, becomes a cast on one line. -/
theorem format_joins_tokens : ∃ parsed,
    Parsed.ofSource "<?php $x = (\nint\n);" = .ok parsed ∧ parsed.errors = [] ∧
      format "<?php $x = (\nint\n);" {} = .ok "<?php\n\n$x = (int);" ∧
      significantKinds "<?php $x = (\nint\n);" =
        .ok [.varName, .assign, .parenBegin, .name, .parenEnd, .semiColon] ∧
      significantKinds "<?php\n\n$x = (int);" = .ok [.varName, .assign, .cast, .semiColon] := by
  have hparsed : (Parsed.ofSource "<?php $x = (\nint\n);").toOption.any
      (fun p => p.errors.isEmpty) = true := by decide +kernel
  obtain ⟨parsed, h, hparsed⟩ := exists_ok_of_any hparsed
  refine ⟨parsed, h, by simpa using hparsed, ?_, ?_, ?_⟩
  · rw [format_eq_rendered]
    decide +kernel
  · decide +kernel
  · decide +kernel

/-- A list counts as broken where the source breaks the line before a comma, and formatting joins
that line: the second time the elements are indented less. -/
theorem format_twice_differs : ∃ parsed,
    Parsed.ofSource "<?php\nf($a\n, [\n1\n]);" = .ok parsed ∧ parsed.errors = [] ∧
      format "<?php\nf($a\n, [\n1\n]);" {} =
        .ok "<?php\n\nf($a, [\n            1\n        ]);" ∧
      format "<?php\n\nf($a, [\n            1\n        ]);" {} =
        .ok "<?php\n\nf($a, [\n    1\n]);" := by
  have hparsed : (Parsed.ofSource "<?php\nf($a\n, [\n1\n]);").toOption.any
      (fun p => p.errors.isEmpty) = true := by decide +kernel
  obtain ⟨parsed, h, hparsed⟩ := exists_ok_of_any hparsed
  refine ⟨parsed, h, by simpa using hparsed, ?_, ?_⟩
  · rw [format_eq_rendered]
    decide +kernel
  · rw [format_eq_rendered]
    decide +kernel

end CodeLayout
