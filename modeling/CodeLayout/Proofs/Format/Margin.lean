import CodeLayout.Format
import CodeLayout.Proofs.Annotate.Program

/-!
# What the margin decides

The right margin is read in one place: an option that breaks long lines measures against it.  Where
no option does that, a style lays every source out in the same way with any margin
(`formatEdits_withMargin`).

Neither the annotation (`annotate_withMargin`) nor the widths that a pass measures depend on the
margin.  So two passes that differ in it alone decide every gap alike, and by induction on the items
they go through the same states (`renderFrom_withMargin`); the paddings that the first pass leads to
are the same, too.
-/

namespace CodeLayout

open List

namespace Style

/-- All options that say when a line is broken. -/
def wrappings (style : Style) : List Wrapping :=
  let w := style.wrap
  [w.extendsImplementsKeyword, w.extendsImplementsList, w.methodParams, w.methodCallArgs,
    w.chainedMethodCalls, w.arrayInit, w.forClauses, w.binaryOps, w.ternaryOps, w.coalescingOps,
    w.assignmentOps, w.groupUseList, w.ifStatement, w.forStatement, w.whileStatement, w.doStatement]

variable {style : Style} (hlong : .ifLong ∉ style.wrappings)
include hlong

theorem listWrap_ne_ifLong (kind : ListKind) : style.listWrap kind ≠ .ifLong := by
  rintro heq
  cases kind <;> first | cases heq | exact hlong (by simp [wrappings, ← heq, listWrap])

theorem bodyWrap_ne_ifLong (c : Construct) : style.bodyWrap c ≠ .ifLong := by
  rintro heq
  cases c <;> exact hlong (by simp [wrappings, ← heq, bodyWrap])

theorem opWrap?_ne_ifLong (op : OpKind) : style.opWrap? op ≠ some .ifLong := by
  rintro heq
  cases op <;> first | cases heq | exact hlong (by simp [wrappings, ← Option.some.inj heq])

end Style

namespace Render

variable {margin : Nat}

/-! ## Gaps -/

def GapView.withMargin (v : GapView) (margin : Nat) : GapView :=
  { v with style := v.style.withMargin margin }

variable {v : GapView} {b : Bool} {w : Wrapping}

theorem wrap_withMargin (h : w ≠ .ifLong) (width : Nat) (start : LineStart) (spaces : Nat) :
    (v.withMargin margin).wrap b w width start spaces = v.wrap b w width start spaces := by
  cases w with
  | always => rfl
  | never => rfl
  | ifLong => exact absurd rfl h

section

variable (hlong : .ifLong ∉ v.style.wrappings)
include hlong

theorem operatorGap_withMargin (op : OpKind) (isBefore : Bool) :
    operatorGap (v.withMargin margin) b op isBefore = operatorGap v b op isBefore := by
  have hop := Style.opWrap?_ne_ifLong hlong op
  unfold operatorGap
  rw [show (v.withMargin margin).style.opWrap? op = v.style.opWrap? op from rfl]
  cases hwrap : v.style.opWrap? op with
  | none => rfl
  | some w =>
    rw [hwrap] at hop
    simp only [wrap_withMargin fun hw : w = .ifLong => hop (hw ▸ rfl)]
    rfl

/-- `demand` is the same with any margin. -/
theorem demand_withMargin (r : Role) : demand (v.withMargin margin) b r = demand v b r := by
  cases r with
  | beforeOp op => exact operatorGap_withMargin hlong op true
  | afterOp op => exact operatorGap_withMargin hlong op false
  | inList kind => exact wrap_withMargin (Style.listWrap_ne_ifLong hlong kind) _ _ _
  | bodyWithoutBraces c => exact wrap_withMargin (Style.bodyWrap_ne_ifLong hlong c) _ _ _
  | beforeExtends | beforeImplements =>
    exact wrap_withMargin (w := v.style.wrap.extendsImplementsKeyword)
      (fun h => hlong (by simp [Style.wrappings, h])) _ _ _
  | inChainedMethodCalls =>
    exact wrap_withMargin (w := v.style.wrap.chainedMethodCalls)
      (fun h => hlong (by simp [Style.wrappings, h])) _ _ _
  | _ => rfl

theorem gapBetween_withMargin (roles : List (Role × Bool)) (prev : Option ItemKind)
    (next : ItemKind) :
    gapBetween (v.withMargin margin) roles prev next = gapBetween v roles prev next := by
  have hroles : Demands.ofRoles (v.withMargin margin) roles = Demands.ofRoles v roles := by
    unfold Demands.ofRoles
    simp only [demand_withMargin hlong]
    rfl
  unfold gapBetween
  rw [hroles]
  rfl

end

/-! ## Passes -/

theorem sequenceWidth_withMargin (style : Style) (source : String) (through : Bool) (r : Reach)
    (items : List Item) : sequenceWidth (style.withMargin margin) source through r items =
      sequenceWidth style source through r items := by
  induction items generalizing r with
  | nil => rfl
  | cons i rest ih =>
    unfold sequenceWidth
    simp only [ih]
    rfl

def Pass.withMargin (p : Pass) (margin : Nat) : Pass :=
  { p with style := p.style.withMargin margin }

variable {p : Pass} (hlong : .ifLong ∉ p.style.wrappings)

theorem view_withMargin (s : State) (old : String) (ahead : List Item) :
    (p.withMargin margin).view s old ahead = (p.view s old ahead).withMargin margin := by
  simp only [Pass.view, Pass.withMargin, GapView.withMargin, sequenceWidth_withMargin]

include hlong

theorem writeGap_withMargin (s : State) (ahead : List Item) :
    (p.withMargin margin).writeGap s ahead = p.writeGap s ahead := by
  have hgap (old : String) : (p.withMargin margin).gapBefore s old ahead = p.gapBefore s old ahead := by
    cases ahead with
    | nil => rfl
    | cons next rest =>
      unfold Pass.gapBefore
      simp only [view_withMargin]
      exact gapBetween_withMargin hlong _ _ _
  unfold Pass.writeGap
  simp only [hgap]
  rfl

/-- Two passes that differ in the margin alone go through the same states (`withMargin`). -/
theorem renderFrom_withMargin (s : State) (items : List Item) :
    (p.withMargin margin).renderFrom s items = p.renderFrom s items := by
  induction items generalizing s with
  | nil => exact writeGap_withMargin hlong s []
  | cons i rest ih =>
    rw [Pass.renderFrom, Pass.renderFrom, writeGap_withMargin hlong]
    simp only [ih]
    rfl

end Render

variable {style : Style}

theorem ItemStream.render_withMargin (hlong : .ifLong ∉ style.wrappings) (stream : ItemStream)
    (source : String) (ranged : Bool) (margin : Nat) :
    stream.render (style.withMargin margin) source ranged = stream.render style source ranged := by
  have hpass (p : Render.Pass) (h : p.style = style) (items : List Item) :
      (p.withMargin margin).render items = p.render items :=
    Render.renderFrom_withMargin (h ▸ hlong) _ items
  unfold ItemStream.render
  have hfirst := hpass (stream.measuringPass style source ranged) rfl stream.items.toList
  rw [show stream.measuringPass (style.withMargin margin) source ranged =
    (stream.measuringPass style source ranged).withMargin margin from rfl]
  dsimp only
  rw [hfirst]
  refine bind_congr fun first => ?_
  exact hpass { stream.measuringPass style source ranged with
    padding := fun m => (stream.measured first.measures).padding? m style } rfl stream.items.toList

/-- Where no option breaks long lines (`ifLong`), the margin decides nothing. -/
theorem formatEdits_withMargin (hlong : .ifLong ∉ style.wrappings) (source : String)
    (margin : Nat) :
    formatEdits source (style.withMargin margin) none none = formatEdits source style none none := by
  have hstream : streamOf source (style.withMargin margin) = streamOf source style := by
    unfold streamOf
    cases htokens : tokenize source with
    | error e => simp [Parsed.ofSource, htokens]; rfl
    | ok ts =>
      obtain ⟨xs, hlexes, rfl⟩ := tokenizeIn_eq_ok_iff.mp htokens
      have hparsed : Parsed.ofSource source = .ok (Parsed.ofTokens (placed xs)) := by
        rw [Parsed.ofSource, htokens]
        rfl
      rw [hparsed]
      exact annotate_withMargin style hlexes margin
  unfold formatEdits
  rw [hstream]
  refine bind_congr fun stream => ?_
  unfold ItemStream.edits
  rw [stream.render_withMargin hlong]

/-- The style that nothing was set in breaks no long lines. -/
theorem formatEdits_withMargin_default : Wrapping.ifLong ∉ Style.wrappings {} ∧
    formatEdits "<?php f($a, $b);" (Style.withMargin {} 5) none none =
      formatEdits "<?php f($a, $b);" {} none none :=
  ⟨by decide, formatEdits_withMargin (by decide) _ 5⟩

end CodeLayout
