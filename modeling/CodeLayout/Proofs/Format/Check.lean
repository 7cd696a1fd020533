import CodeLayout.Command.Run
import CodeLayout.Proofs.Format.Range

/-!
# Checking and printing agree

Checking counts the edits of a source, printing applies them.  A source has no edits exactly if
printing it gives the source again: the pieces that are laid out cannot change so that the changes
cancel out, and neither can those that start in a range.
-/

namespace CodeLayout

variable {source : String} {parsed : Parsed}

/-- `formatEdits` of a readable source, and those in a range if it has no syntax problems, are none
exactly if applying them gives the source again. -/
theorem formatEdits_eq_nil_iff (h : Parsed.ofSource source = .ok parsed) (style : Style)
    (range : Option Span) (herrors : range.isSome = true → parsed.errors = []) :
    ∃ edits t, formatEdits source style range none = .ok edits ∧
      Edit.apply source edits = .ok t ∧ (edits = [] ↔ t = source) := by
  obtain ⟨stream, hstream, hannotate, hcovers⟩ := streamOf_eq_ok h style
  obtain ⟨s, hrender, hplaced, hold, hlaid⟩ := stream.render_laid style hcovers
  have hrange : stream.render style source range.isSome = .ok s := by
    cases hsome : range.isSome with
    | false => exact hrender
    | true =>
      rw [ItemStream.render_ranged (plain_of_annotate h (herrors hsome) hannotate), hrender]
  obtain ⟨t, ht, hiff⟩ :=
    hlaid.finish_eq_nil_iff (firm_of_annotate h hannotate) hplaced hold.symm range
  exact ⟨_, t, formatEdits_eq range none hstream hrange, ht, hiff⟩

theorem checkSyntax_eq (h : Parsed.ofSource source = .ok parsed) :
    checkSyntax source =
      if parsed.errors = [] then .ok () else .error (.malformed parsed.errors) := by
  rw [checkSyntax, h]
  show (if !parsed.errors.isEmpty then _ else _) = _
  cases parsed.errors <;> rfl

section RunOn

variable {o : Command.Options} {style : Style} {source : String}

/-- `runOn` answers `finish` with the edits of a source without syntax problems. -/
theorem Command.runOn_eq_finish {edits : List Edit} (hpredict : o.predict = none)
    (hsound : checkSyntax source = .ok ())
    (hedits : formatEdits source style o.range none = .ok edits) :
    runOn o style source = finish o source edits := by
  rw [runOn, hpredict]
  dsimp only
  rw [hsound, hedits]
  rfl

theorem Command.runOn_eq_failure {e : LayoutError} (hpredict : o.predict = none)
    (hsound : checkSyntax source = .error e) :
    runOn o style source = .failure (complaints e) := by
  rw [runOn, hpredict]
  dsimp only
  rw [hsound]
  rfl

/-- `finish` succeeds in checking without edits. -/
theorem Command.status_finish_check {edits : List Edit} (hlist : o.edits = false)
    (hcheck : o.check = true) : (finish o source edits).status = 0 ↔ edits = [] := by
  rw [finish, if_neg (by simp [hlist]), if_pos hcheck]
  cases edits with
  | nil => exact ⟨fun _ => rfl, fun _ => rfl⟩
  | cons e es => exact ⟨fun h => absurd h (by simp), fun h => absurd h (by simp)⟩

/-- `finish` prints what the edits make of a source. -/
theorem Command.finish_print {edits : List Edit} {t : String} (hlist : o.edits = false)
    (hcheck : o.check = false) (ht : Edit.apply source edits = .ok t) :
    finish o source edits = .success t := by
  rw [finish, if_neg (by simp [hlist]), if_neg (by simp [hcheck]), ht]

end RunOn

/-- Checking and printing agree.  A readable source has no `formatEdits` exactly if `format` gives
the source again; and whatever the other options, a run that checks the source succeeds exactly if
the same run without checking prints the source. -/
theorem check_iff_prints_source {source : String} {parsed : Parsed}
    (h : Parsed.ofSource source = .ok parsed) (style : Style) :
    (∃ edits t, formatEdits source style none none = .ok edits ∧ format source style = .ok t ∧
      (edits = [] ↔ t = source)) ∧
    ∀ o : Command.Options, o.predict = none → o.edits = false →
      ((Command.runOn { o with check := true } style source).status = 0 ↔
        Command.runOn { o with check := false } style source = .success source) := by
  constructor
  · obtain ⟨edits, t, hedits, ht, hiff⟩ := formatEdits_eq_nil_iff h style none nofun
    refine ⟨edits, t, hedits, ?_, hiff⟩
    rw [format, hedits]
    exact ht
  · intro o hpredict hlist
    by_cases herrors : parsed.errors = []
    · obtain ⟨edits, t, hedits, ht, hiff⟩ :=
        formatEdits_eq_nil_iff h style o.range fun _ => herrors
      have hsound : checkSyntax source = .ok () := by rw [checkSyntax_eq h, if_pos herrors]
      have hrun (check : Bool) : Command.runOn { o with check } style source =
          Command.finish { o with check } source edits :=
        Command.runOn_eq_finish hpredict hsound hedits
      rw [hrun, hrun, Command.status_finish_check (o := { o with check := true }) hlist rfl,
        Command.finish_print (o := { o with check := false }) hlist rfl ht, hiff]
      exact ⟨congrArg Command.Outcome.success, congrArg Command.Outcome.output⟩
    · have hsound := checkSyntax_eq h
      rw [if_neg herrors] at hsound
      have hrun (check : Bool) : Command.runOn { o with check } style source =
          .failure (Command.complaints (.malformed parsed.errors)) :=
        Command.runOn_eq_failure hpredict hsound
      -- both runs report the problems
      rw [hrun, hrun]
      exact ⟨fun hstatus => absurd hstatus Nat.one_ne_zero, fun hprint =>
        absurd (congrArg Command.Outcome.status hprint) Nat.one_ne_zero⟩

/-- A comment that ends with a blank, and markup that is nothing else. -/
theorem check_iff_prints_source_blanks : ∃ parsed,
    Parsed.ofSource "<?php\n\n$a = 1; // x \n?> \n<?= $a ?>\n" = .ok parsed ∧
      formatEdits "<?php\n\n$a = 1; // x \n?> \n<?= $a ?>\n" {} none none = .ok [] ∧
      format "<?php\n\n$a = 1; // x \n?> \n<?= $a ?>\n" {} =
        .ok "<?php\n\n$a = 1; // x \n?> \n<?= $a ?>\n" ∧
      (Command.runOn { check := true } {} "<?php\n\n$a = 1; // x \n?> \n<?= $a ?>\n").status = 0 ∧
      Command.runOn { check := false } {} "<?php\n\n$a = 1; // x \n?> \n<?= $a ?>\n" =
        .success "<?php\n\n$a = 1; // x \n?> \n<?= $a ?>\n" := by
  have hedits : formatEdits "<?php\n\n$a = 1; // x \n?> \n<?= $a ?>\n" {} none none = .ok [] := by
    decide +kernel
  have hcheck : (Command.runOn { check := true } {}
      "<?php\n\n$a = 1; // x \n?> \n<?= $a ?>\n").status = 0 := by decide +kernel
  have hparsed : (Parsed.ofSource "<?php\n\n$a = 1; // x \n?> \n<?= $a ?>\n").toOption.isSome =
      true := by decide +kernel
  cases h : Parsed.ofSource "<?php\n\n$a = 1; // x \n?> \n<?= $a ?>\n" with
  | error e => rw [h] at hparsed; cases hparsed
  | ok parsed =>
      obtain ⟨⟨edits, t, hedits', ht, hiff⟩, hrun⟩ := check_iff_prints_source h {}
      cases hedits.symm.trans hedits'
      obtain rfl := hiff.mp rfl
      exact ⟨parsed, rfl, hedits, ht, hcheck, (hrun {} rfl rfl).mp hcheck⟩

end CodeLayout
