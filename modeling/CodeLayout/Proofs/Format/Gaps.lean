import CodeLayout.Proofs.Format.Range
import CodeLayout.Proofs.Render.Spaced

/-!
# Gaps that must stay

Most gaps are free: whatever is written for them, the source says the same.  The gap behind a line
comment is not: without a line break what follows would become part of the comment.
-/

namespace CodeLayout

open List

variable {source : String} {parsed : Parsed}

/-- `format` writes a readable source gap by gap (`Gapped`), as a pass decides. -/
theorem format_gapped (h : Parsed.ofSource source = .ok parsed) (style : Style) :
    ∃ stream t, ∃ p : Render.Pass, annotate source parsed style = .ok stream ∧
      format source style = .ok t ∧ p.source = source ∧ p.style = style ∧
      Render.Gapped source p.Settles {} stream.items.toList source.toList t.toList := by
  obtain ⟨stream, hstream, hannotate, hcovers⟩ := streamOf_eq_ok h style
  obtain ⟨first, final, -, hfinal, hrender⟩ := stream.render_wrote style false hcovers
  have hgapped := Render.Pass.render_gapped rfl hcovers hfinal.run
  refine ⟨stream, String.ofList final.output, stream.liningPass style source false first.measures,
    hannotate, ?_, rfl, rfl, ?_⟩
  · rw [format_eq_rendered, rendered, hstream]
    simp only [bind, Except.bind]
    rw [hrender]
    rfl
  · rw [String.toList_ofList]
    exact hgapped

/-- `format` decides for the gaps in front of the texts (`Spaced`). -/
theorem format_spaced (h : Parsed.ofSource source = .ok parsed) (style : Style) :
    ∃ stream t, ∃ p : Render.Pass, annotate source parsed style = .ok stream ∧
      format source style = .ok t ∧ p.source = source ∧
      Render.Spaced source (fun b i g g' _ => p.Decides b i g g') {} stream.items.toList
        source.toList t.toList := by
  obtain ⟨stream, t, p, hannotate, hformat, hsource, -, hgapped⟩ := format_gapped h style
  exact ⟨stream, t, p, hannotate, hformat, hsource, hgapped.spaced⟩

/-! ## Line comments -/

namespace Render

variable {lines n : Nat} {g : List Char}

/-- A gap that `settle` breaks holds a line feed. -/
theorem Demands.pos_of_settle {d : Demands} {v : GapView} (h : d.settle v = .broken lines n) :
    0 < lines := by
  unfold settle Gap.ofCounts at h
  split at h <;> split at h <;> first | cases h; omega | cases h

theorem Gap.pos_of_withBlank {gap : Gap} {blank : Nat}
    (hgap : ∀ lines n, gap = .broken lines n → 0 < lines)
    (h : gap.withBlank blank = .broken lines n) : 0 < lines := by
  unfold withBlank at h
  split at h
  · cases h
    have := hgap _ _ rfl
    omega
  · next hnot => exact absurd h (hnot _ _)

/-- Behind a line comment `gapBetween` breaks the line, or keeps the gap of the source in front of
another comment. -/
theorem gapBetween_lineComment (v : GapView) (roles : List (Role × Bool)) (next : ItemKind) :
    (∃ lines n, gapBetween v roles (some .lineComment) next = .broken lines n ∧ 0 < lines) ∨
      gapBetween v roles (some .lineComment) next = .kept ∧ next.isComment = true := by
  have hbroken {gap : Gap} (hpos : ∀ lines n, gap = .broken lines n → 0 < lines) :
      ∃ lines n, (if some ItemKind.lineComment == some .lineComment && !gap.isBroken then
        .broken 1 v.indent else gap) = Gap.broken lines n ∧ 0 < lines := by
    cases gap with
    | broken lines n => exact ⟨lines, n, rfl, hpos lines n rfl⟩
    | kept => exact ⟨1, v.indent, rfl, Nat.one_pos⟩
    | inline n => exact ⟨1, v.indent, rfl, Nat.one_pos⟩
  unfold gapBetween
  dsimp only
  split
  · next hkeeps =>
    simp only [Demands.keepsDistance, Bool.and_eq_true] at hkeeps
    exact .inr ⟨rfl, hkeeps.1.2⟩
  · refine .inl (hbroken fun lines n h => ?_)
    split at h
    · split at h
      · exact Gap.pos_of_withBlank (fun _ _ => Demands.pos_of_settle) h
      · exact Demands.pos_of_settle h
    · exact Demands.pos_of_settle h

/-- A gap of the source between a line comment and another comment holds the end of the line. -/
theorem lineBreak_mem {as x y cs : List Char} {kind : ItemKind}
    (hprev : Edges .lineComment as x (g ++ (y ++ cs))) {bs : List Char} (hnext : Edges kind bs y cs)
    (hkind : kind.isComment = true) (hne : y ≠ []) (hg : ∀ c ∈ g, Lexeme.isBlank c = true) :
    '\n' ∈ g ∨ '\r' ∈ g := by
  cases g with
  | nil =>
    -- two comments that touch would be one
    obtain ⟨c, y, rfl⟩ := exists_cons_of_ne_nil hne
    have hends := hprev.lineEnd rfl c rfl
    rcases hnext.sign hkind c rfl with rfl | rfl <;> exact absurd hends (by decide)
  | cons c g =>
    have hblank := hg c mem_cons_self
    rcases hprev.lineEnd rfl c rfl with hends | rfl
    · simp only [Lexeme.isBlank, Bool.or_eq_true, beq_iff_eq] at hblank
      rcases hblank with ((rfl | rfl) | rfl) | rfl
      · exact absurd hends (by decide)
      · exact absurd hends (by decide)
      · exact .inr mem_cons_self
      · exact .inl mem_cons_self
    · exact absurd hblank (by decide)

/-- What a pass `Decides` for the gap behind a line comment breaks the line. -/
theorem Pass.Decides.lineBreak_mem {p : Pass} {b : Between} {i q : Item} {g' : List Char}
    (h : p.Decides b i g g') (hprev : b.prev = some q) (hq : q.kind = .lineComment)
    (hfirm : ∀ j, j = i ∨ b.prev = some j → j.kind.isText = true ∧ j.Firm p.source)
    (hg : ∀ c ∈ g, Lexeme.isBlank c = true) : '\n' ∈ g' ∨ '\r' ∈ g' := by
  obtain ⟨s, ahead, hs, rfl⟩ := h.gap
  have hkinds : s.prev.map Item.kind = some .lineComment := by
    rw [show s.prev = b.prev from congrArg Between.prev hs, hprev, Option.map_some, hq]
  rw [hkinds]
  rcases gapBetween_lineComment _ s.marks.roles i.kind with ⟨lines, n, hgap, hpos⟩ | ⟨hgap, hnext⟩
  · rw [hgap, gapText, String.toList_append, Text.toList_repeated]
    refine .inl (mem_append_left _ (mem_replicate.mpr ⟨?_, rfl⟩))
    omega
  · rw [hgap, gapText, String.toList_ofList]
    obtain ⟨a, cs, -, hedges, hbefore⟩ := h.edges hfirm
    obtain ⟨as, x, hedges'⟩ := hbefore q hprev
    rw [hq] at hedges'
    exact Render.lineBreak_mem hedges' hedges hnext h.nonempty hg

end Render

/-- The texts around a gap of a readable source are `Firm`. -/
theorem firm_around {style : Style} {stream : ItemStream} (h : Parsed.ofSource source = .ok parsed)
    (hstream : annotate source parsed style = .ok stream) {before behind : List Item} {i : Item}
    (hitems : stream.items.toList = before ++ i :: behind) (hkind : i.kind.isText = true) :
    ∀ j, j = i ∨ (Between.after before).prev = some j → j.kind.isText = true ∧ j.Firm source := by
  intro j hj
  refine firm_of_annotate h hstream j ?_
  rw [hitems, mem_filter]
  rcases hj with rfl | hj
  · exact ⟨by simp, hkind⟩
  · exact ⟨mem_append_left _ (Between.mem_of_prev hj).1, (Between.mem_of_prev hj).2⟩

/-- `format` answers for every readable source, well-formed or not and whatever the style, and
nothing comes to stand on the line of a line comment behind it: what is written between a line
comment and the next text breaks the line. -/
theorem format_lineComments {source : String} {parsed : Parsed}
    (h : Parsed.ofSource source = .ok parsed) (style : Style) :
    ∃ stream t, annotate source parsed style = .ok stream ∧ format source style = .ok t ∧
      Render.Spaced source
        (fun b _ _ g' _ => b.prev.map Item.kind = some .lineComment → '\n' ∈ g' ∨ '\r' ∈ g') {}
        stream.items.toList source.toList t.toList := by
  obtain ⟨stream, t, p, hstream, ht, rfl, hspaced⟩ := format_spaced h style
  refine ⟨stream, t, hstream, ht, hspaced.imp ?_⟩
  intro before i behind g g' x' hitems hkind hgap _ hdecides hprev
  obtain ⟨q, hq, hline⟩ := Option.map_eq_some_iff.mp hprev
  exact hdecides.lineBreak_mem hq hline (firm_around h hstream hitems hkind) hgap.blank

/-- Line comments behind a syntax problem, in a list and before a close tag: a carriage return is
kept, another one becomes a line feed, and a line feed is added. -/
theorem format_lineComments_malformed : ∃ parsed stream t,
    Parsed.ofSource "<?php f(1; // a\r# b\n$x = [1, // c\r2]; # d ?><b>" = .ok parsed ∧
      parsed.errors ≠ [] ∧
      annotate "<?php f(1; // a\r# b\n$x = [1, // c\r2]; # d ?><b>" parsed {} = .ok stream ∧
      format "<?php f(1; // a\r# b\n$x = [1, // c\r2]; # d ?><b>" {} = .ok t ∧
      t = "<?php f(1; // a\r# b\n$x = [1, // c\n    2]; # d \n?><b>" ∧
      Render.Spaced "<?php f(1; // a\r# b\n$x = [1, // c\r2]; # d ?><b>"
        (fun b _ _ g' _ => b.prev.map Item.kind = some .lineComment → '\n' ∈ g' ∨ '\r' ∈ g') {}
        stream.items.toList "<?php f(1; // a\r# b\n$x = [1, // c\r2]; # d ?><b>".toList
        t.toList := by
  have hparsed : (Parsed.ofSource "<?php f(1; // a\r# b\n$x = [1, // c\r2]; # d ?><b>").toOption.any
      (fun p => !p.errors.isEmpty) = true := by decide +kernel
  have hformat : rendered "<?php f(1; // a\r# b\n$x = [1, // c\r2]; # d ?><b>" {} =
      .ok "<?php f(1; // a\r# b\n$x = [1, // c\n    2]; # d \n?><b>" := by decide +kernel
  obtain ⟨parsed, h, hparsed⟩ := exists_ok_of_any hparsed
  obtain ⟨stream, t, hstream, ht, hspaced⟩ := format_lineComments h {}
  refine ⟨parsed, stream, t, h, ?_, hstream, ht, ?_, hspaced⟩
  · simpa using hparsed
  · rw [format_eq_rendered, hformat] at ht
    exact (Except.ok.inj ht).symm

end CodeLayout
