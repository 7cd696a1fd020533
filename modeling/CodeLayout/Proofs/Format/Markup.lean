import CodeLayout.Proofs.Annotate.Program
import CodeLayout.Proofs.Format.Gaps

/-!
# Markup is copied

Markup touches the tags around it, and stays as it is: what a style asks for comes to stand within
code only.  Nothing in the stream widens a gap next to markup (`snug_of_annotate`), and a gap of the
source that is empty stays empty if nothing widens it.
-/

namespace CodeLayout

open List

namespace Render

variable {v : GapView} {roles : List (Role × Bool)} {d : Demands} {p : Pass} {b : Between} {i : Item}
  {g g' : List Char}

/-! ## Roles that widen nothing -/

/-- The demands put nothing into an empty gap. -/
structure Demands.Idle (d : Demands) : Prop where
  forced : d.forced = none
  fixed : d.fixed = none ∨ d.fixed = some (0, 0)
  soft : d.soft = none

theorem Demands.Idle.add (h : d.Idle) {r : Role} (hr : (ItemKind.role r).widens = false)
    (breakable : Bool) : (d.add (demand v breakable r)).Idle := by
  cases r with
  | blank policy => exact ⟨h.forced, h.fixed, h.soft⟩
  | beforeColon => exact ⟨h.forced, .inr rfl, h.soft⟩
  | _ => cases hr

theorem Demands.Idle.foldl (h : d.Idle) (hroles : ∀ r ∈ roles, (ItemKind.role r.1).widens = false) :
    (roles.foldl (fun d r => d.add (demand v r.2 r.1)) d).Idle := by
  induction roles generalizing d with
  | nil => exact h
  | cons r roles ih =>
    obtain ⟨hr, hroles⟩ := forall_mem_cons.mp hroles
    exact ih (h.add hr r.2) hroles

section

variable (hroles : ∀ r ∈ roles, (ItemKind.role r.1).widens = false)
include hroles

/-- `emptyPair?` finds none where no pair is opened in the gap. -/
theorem emptyPair?_eq_none : emptyPair? v (roles.map Prod.fst) = none := by
  have hfind : (roles.map Prod.fst).find? (fun r => (closing? r).isSome) = none := by
    rw [find?_eq_none]
    intro r hr hclosing
    obtain ⟨q, hq, rfl⟩ := mem_map.mp hr
    have hwidens := hroles q hq
    cases hrole : q.1 with
    | blank policy => rw [hrole] at hclosing; cases hclosing
    | beforeColon => rw [hrole] at hclosing; cases hclosing
    | _ => rw [hrole] at hwidens; cases hwidens
  unfold emptyPair?
  rw [hfind]
  rfl

theorem idle_ofRoles : (Demands.ofRoles v roles).Idle := by
  unfold Demands.ofRoles
  rw [emptyPair?_eq_none hroles]
  exact Demands.Idle.foldl ⟨rfl, .inl rfl, rfl⟩ hroles

/-- `gapBetween` writes a gap without line breaks, in which nothing is asked for, as it is or as
nothing. -/
theorem gapBetween_narrow
    (hlines : v.oldNewlines = 0) {prev : Option ItemKind} (hprev : prev ≠ some .lineComment)
    (next : ItemKind) :
    gapBetween v roles prev next = .kept ∨ gapBetween v roles prev next = .inline 0 := by
  have hidle : (Demands.ofRoles v roles).Idle := idle_ofRoles hroles
  unfold gapBetween
  dsimp only
  generalize Demands.ofRoles v roles = d at hidle
  have hsettle : d.settle v = .kept ∨ d.settle v = .inline 0 := by
    unfold Demands.settle
    rw [hidle.forced, hidle.soft, hlines]
    rcases hidle.fixed with hfixed | hfixed
    · rw [hfixed]
      exact .inl rfl
    · rw [hfixed]
      exact .inr rfl
  -- blank lines are added where the line is broken only
  have hblank (blank : Nat) :
      (d.settle v).withBlank blank = .kept ∨ (d.settle v).withBlank blank = .inline 0 := by
    rcases hsettle with hgap | hgap
    · exact .inl (by rw [hgap]; rfl)
    · exact .inr (by rw [hgap]; rfl)
  split
  · exact .inl rfl
  · rw [if_neg (by simp [hprev])]
    split
    · split
      · exact hblank _
      · exact hsettle
    · exact hsettle

end

/-- What a pass `Decides` for an empty gap that is `Narrow` is nothing. -/
theorem Pass.Decides.eq_nil (h : p.Decides b i [] g') (hb : b.Narrow)
    (hprev : b.prev.map Item.kind ≠ some .lineComment) : g' = [] := by
  obtain ⟨s, ahead, rfl, rfl⟩ := h.gap
  have halign : s.marks.align = none := by
    simpa [State.between] using hb.aligned
  have hroles : ∀ r ∈ s.marks.roles, (ItemKind.role r.1).widens = false :=
    fun r hr => hb.roles r.1 (mem_map_of_mem hr)
  have hlines : (p.view s (String.ofList []) (i :: ahead)).oldNewlines = 0 := rfl
  rcases gapBetween_narrow hroles hlines hprev i.kind with hgap | hgap
  · rw [show s.between.prev = s.prev from rfl] at hgap
    rw [hgap, gapText, String.toList_ofList]
  · rw [show s.between.prev = s.prev from rfl] at hgap
    rw [hgap, gapText, spaces, halign]
    rfl

/-- A pass `Decides` no gap of the source next to markup, since there is none. -/
theorem Pass.Decides.touches (h : p.Decides b i g g')
    (hfirm : ∀ j, j = i ∨ b.prev = some j → j.kind.isText = true ∧ j.Firm p.source)
    (hg : ∀ c ∈ g, Lexeme.isBlank c = true)
    (hhtml : i.kind = .html ∨ b.prev.map Item.kind = some .html) : g = [] := by
  obtain ⟨a, cs, -, hedges, hbefore⟩ := h.edges hfirm
  rcases hhtml with hhtml | hhtml
  · exact (hedges.around hhtml).1.eq_nil_of_reverse hg
  · obtain ⟨q, hq, hkind⟩ := Option.map_eq_some_iff.mp hhtml
    obtain ⟨as, x, hedges⟩ := hbefore q hq
    have hbare := (hedges.around hkind).2
    cases g with
    | nil => rfl
    | cons c g =>
      have hblank := hg c mem_cons_self
      rw [hbare c rfl] at hblank
      cases hblank

end Render

/-! ## Formatting -/

/-- `format` answers for every readable source, well-formed or not and whatever the style, and its
markup is copied: it starts the source or follows a close tag, its text is written as it is, and
between it and what stands before or behind it there is nothing, neither in the source nor in what
is written. -/
theorem format_markup {source : String} {parsed : Parsed} (h : Parsed.ofSource source = .ok parsed)
    (style : Style) :
    ∃ stream t, annotate source parsed style = .ok stream ∧ format source style = .ok t ∧
      Render.Spaced source
        (fun b i g g' x' =>
          (i.kind = .html → x' = (i.text source).toList ∧
            (b.prev = none ∨ b.prev.map Item.kind = some .closeTag)) ∧
          (i.kind = .html ∨ b.prev.map Item.kind = some .html → g = [] ∧ g' = [])) {}
        stream.items.toList source.toList t.toList := by
  obtain ⟨stream, t, p, hstream, ht, rfl, hspaced⟩ := format_spaced h style
  have hsnug : Between.Snug stream.items.toList := by
    obtain ⟨xs, hlexes, rfl⟩ := Parsed.ofSource_eq_ok_iff.mp h
    exact snug_of_annotate hlexes hstream
  refine ⟨stream, t, hstream, ht, hspaced.imp ?_⟩
  intro before i behind g g' x' hitems hkind hgap htext hdecides
  have hadmits : (Between.after before).Admits i.kind := hsnug before i behind hitems hkind
  refine ⟨fun hhtml => ⟨?_, hadmits.behind hhtml⟩, fun hhtml => ?_⟩
  · rcases htext with hsame | ⟨hcomment, -⟩
    · exact hsame
    · exact absurd hcomment (by simp [hhtml])
  · obtain rfl : g = [] :=
      hdecides.touches (firm_around h hstream hitems hkind) hgap.blank hhtml
    refine ⟨rfl, hdecides.eq_nil (hadmits.narrow hhtml) fun hline => ?_⟩
    -- behind a line comment the line would be broken, but a close tag stands between it and markup
    rcases hhtml with hhtml | hprev
    · rcases hadmits.behind hhtml with hnone | htag
      · rw [show (before.foldl Between.add {}).prev = none from hnone] at hline
        cases hline
      · cases htag.symm.trans hline
    · cases hprev.symm.trans hline

/-- Markup around code with syntax problems: the code gets its blanks, the lines and blanks of the markup
stay. -/
theorem format_markup_malformed : ∃ parsed stream t,
    Parsed.ofSource "\n<b> <?php f(1;?>\n <?=$a?> <i>\n" = .ok parsed ∧ parsed.errors ≠ [] ∧
      annotate "\n<b> <?php f(1;?>\n <?=$a?> <i>\n" parsed {} = .ok stream ∧
      format "\n<b> <?php f(1;?>\n <?=$a?> <i>\n" {} = .ok t ∧
      t = "\n<b> <?php f(1; ?>\n <?= $a ?> <i>\n" ∧
      Render.Spaced "\n<b> <?php f(1;?>\n <?=$a?> <i>\n"
        (fun b i g g' x' =>
          (i.kind = .html → x' = (i.text "\n<b> <?php f(1;?>\n <?=$a?> <i>\n").toList ∧
            (b.prev = none ∨ b.prev.map Item.kind = some .closeTag)) ∧
          (i.kind = .html ∨ b.prev.map Item.kind = some .html → g = [] ∧ g' = [])) {}
        stream.items.toList "\n<b> <?php f(1;?>\n <?=$a?> <i>\n".toList t.toList := by
  have hparsed : (Parsed.ofSource "\n<b> <?php f(1;?>\n <?=$a?> <i>\n").toOption.any
      (fun p => !p.errors.isEmpty) = true := by decide +kernel
  have hformat : rendered "\n<b> <?php f(1;?>\n <?=$a?> <i>\n" {} =
      .ok "\n<b> <?php f(1; ?>\n <?= $a ?> <i>\n" := by decide +kernel
  obtain ⟨parsed, h, hparsed⟩ := exists_ok_of_any hparsed
  obtain ⟨stream, t, hstream, ht, hspaced⟩ := format_markup h {}
  refine ⟨parsed, stream, t, h, ?_, hstream, ht, ?_, hspaced⟩
  · simpa using hparsed
  · rw [format_eq_rendered, hformat] at ht
    exact (Except.ok.inj ht).symm

end CodeLayout
