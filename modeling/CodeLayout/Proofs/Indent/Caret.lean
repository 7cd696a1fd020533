import CodeLayout.Indent.Predict
import CodeLayout.Proofs.Edit.Single
import CodeLayout.Proofs.Render.Indents
import CodeLayout.Proofs.Text.Lines
import CodeLayout.Proofs.Token.Edges

/-!
# What stands behind the caret

The rules ask for the indents of the lines on which tokens start, and a line may reach behind the
caret.  Its indent does not: a token that matters starts with a character that is no blank, and that
one stands before the caret (`lineIndentAt_of_bare`).  Only the rule for a close tag asks for the line
of the caret itself.  So the indent behind a text that can be read, and that leaves no section, is the
same in every source that starts with the text (`predictIndent_of_prefix`).  A new line that is typed
at the caret starts at this indent (`apply_newLineEdit`).
-/

namespace CodeLayout

open List
open Text (sizeOfChars sizeOfChars_append sizeOfChars_nil sizeOfChars_toList)

/-- `lineIndentAt` in front of a character that is no blank is told by the line. -/
theorem Render.lineIndentAt_of_bare (style : Style) {source : String} {as cs : List Char}
    (hsource : source.toList = as ++ cs) (hbare : Text.Bare cs) (hne : cs ≠ []) :
    lineIndentAt style source (sizeOfChars as) =
      style.visualWidth (String.ofList ((Text.lastLine as).takeWhile Text.isTabOrSpace)) 0 := by
  obtain ⟨c, cs, rfl⟩ := exists_cons_of_ne_nil hne
  have hblank := hbare c rfl
  simp only [Lexeme.isBlank, Bool.or_eq_false_iff] at hblank
  have hline : Text.firstLine (c :: cs) = c :: Text.firstLine cs := by
    rw [Text.firstLine, takeWhile_cons_of_pos (by simpa using hblank.2), Text.firstLine]
  have hstop : Text.isTabOrSpace c ≠ true := by
    simp [Text.isTabOrSpace, hblank.1.1]
  have hsize : sizeOfChars as ≤ Text.size source := by
    rw [← sizeOfChars_toList, hsource, sizeOfChars_append]
    exact Nat.le_add_right _ _
  rw [lineIndentAt, Nat.min_eq_left hsize, Text.before_of_toList hsource, Text.after_of_toList hsource,
    String.toList_ofList, String.toList_ofList, hline, takeWhile_append,
    takeWhile_cons_of_neg hstop]
  split
  · next hall => rw [append_nil, (List.takeWhile_prefix _).eq_of_length hall]
  · rfl

namespace Indent

/-- The token stands in the text and starts with a character that is no blank. -/
def StandsIn (text : String) (t : Token) : Prop :=
  ∃ as cs, text.toList = as ++ cs ∧ t.start = sizeOfChars as ∧ Text.Bare cs ∧ cs ≠ []

section

variable {text source : String} {t : Token} (h : StandsIn text t)
include h

theorem StandsIn.start_le : t.start ≤ Text.size text := by
  obtain ⟨as, cs, htext, hstart, -⟩ := h
  rw [hstart, ← sizeOfChars_toList, htext, sizeOfChars_append]
  exact Nat.le_add_right _ _

/-- `lineIndentAt` of its line is the same where the text goes on. -/
theorem StandsIn.lineIndentAt (style : Style) (hsource : text.toList <+: source.toList) :
    Render.lineIndentAt style source t.start = Render.lineIndentAt style text t.start := by
  obtain ⟨as, cs, htext, hstart, hbare, hne⟩ := h
  obtain ⟨ds, hds⟩ := hsource
  rw [hstart, Render.lineIndentAt_of_bare style htext hbare hne,
    Render.lineIndentAt_of_bare style (by rw [← hds, htext, append_assoc])
      (hbare.append hne) (append_ne_nil_of_left_ne_nil hne ds)]

end

namespace View

/-- The two views show the same tokens, on lines that are indented alike. -/
structure SameLines (v w : View) : Prop where
  style : v.style = w.style
  raw : v.raw = w.raw
  tokens : v.tokens = w.tokens
  indentOf : v.indentOf = w.indentOf
  isBrokenList : v.isBrokenList = w.isBrokenList
  comment : ∀ t ∈ w.raw, t.kind.isComment = true →
    v.lineIndent t.start = w.lineIndent t.start ∧ v.startsLine t.start = w.startsLine t.start

namespace SameLines

variable {v w : View} (h : SameLines v w)
include h

theorem back : v.back = w.back := by
  funext position
  rw [View.back, View.back, h.tokens]

theorem kind? : v.kind? = w.kind? := by
  funext position
  rw [View.kind?, View.kind?, h.tokens]

theorem kindBefore? : v.kindBefore? = w.kindBefore? := by
  funext position n
  rw [View.kindBefore?, View.kindBefore?, h.kind?]

theorem opensArray : v.opensArray = w.opensArray := by
  funext opener
  rw [View.opensArray, View.opensArray, h.kind?, h.kindBefore?]

theorem scan : v.scan = w.scan := by
  funext position stopAtComma
  rw [View.scan, View.scan, h.back]

theorem expressionIndent : v.expressionIndent = w.expressionIndent := by
  funext position
  rw [View.expressionIndent, View.expressionIndent, h.scan, h.indentOf]

theorem outermostHeader (n keyword : Nat) :
    v.outermostHeader n keyword = w.outermostHeader n keyword := by
  induction n generalizing keyword with
  | zero => rfl
  | succ n ih => simp only [View.outermostHeader, h.scan, ih]

theorem afterSemicolon : v.afterSemicolon = w.afterSemicolon := by
  funext semi
  simp only [View.afterSemicolon, h.scan, h.indentOf, h.style, h.outermostHeader]

theorem afterComma : v.afterComma = w.afterComma := by
  funext comma
  unfold View.afterComma
  rw [h.scan, h.isBrokenList, h.expressionIndent, h.opensArray, h.kind?, h.indentOf, h.style]

theorem afterParen : v.afterParen = w.afterParen := by
  funext close
  simp only [View.afterParen, h.back, h.indentOf, h.expressionIndent, h.kindBefore?, h.style]

/-- `afterToken` answers the same, but for a close tag. -/
theorem afterToken (caret last : Nat) {kind : TokenKind} (hkind : kind ≠ .closeTag) :
    v.afterToken caret last kind = w.afterToken caret last kind := by
  unfold View.afterToken
  rw [h.style, h.indentOf, h.afterSemicolon, h.afterComma, h.afterParen, h.back, h.expressionIndent]
  cases kind with
  | closeTag => exact absurd rfl hkind
  | _ => rfl

theorem lastComment? : v.lastComment? = w.lastComment? := by
  rw [View.lastComment?, View.lastComment?, h.raw]

omit h in
/-- `lastComment?` is a comment that has been read. -/
theorem mem_of_lastComment? {t : Token} (ht : w.lastComment? = some t) :
    t ∈ w.raw ∧ t.kind.isComment = true := by
  rw [View.lastComment?] at ht
  obtain ⟨u, hfind, hu⟩ := Option.bind_eq_some_iff.mp ht
  split at hu
  · next hcomment =>
    cases hu
    exact ⟨by simpa using mem_of_find?_eq_some hfind, hcomment⟩
  · cases hu

theorem predict (caret : Nat) (hclose : ∀ t ∈ w.tokens, t.kind ≠ .closeTag) :
    v.predict caret = w.predict caret := by
  have hcomment : (v.lastComment?.filter fun t => v.startsLine t.start) =
      w.lastComment?.filter fun t => w.startsLine t.start := by
    rw [h.lastComment?]
    cases hlast : w.lastComment? with
    | none => rfl
    | some t =>
      obtain ⟨hmem, hkind⟩ := mem_of_lastComment? hlast
      rw [Option.filter_some, Option.filter_some, (h.comment t hmem hkind).2]
  unfold View.predict
  rw [hcomment]
  cases hlast : w.lastComment?.filter fun t => w.startsLine t.start with
  | some t =>
    obtain ⟨hmem, hkind⟩ := mem_of_lastComment? (Option.filter_eq_some_iff.mp hlast).1
    exact congrArg pure (h.comment t hmem hkind).1
  | none =>
    dsimp only
    rw [h.tokens]
    cases hback : w.tokens.back? with
    | none => rfl
    | some t => exact h.afterToken _ _ (hclose t (Array.mem_of_back? hback))

end SameLines

/-- A view on a text and on a source that starts with it show the `SameLines`. -/
theorem sameLines_of_prefix {text source : String} (hsource : text.toList <+: source.toList)
    (style : Style) {raw : Array Token}
    (hraw : ∀ t ∈ raw, isCode t = true ∨ t.kind.isComment = true → StandsIn text t) :
    SameLines (.of source style raw) (.of text style raw) where
  style := rfl
  raw := rfl
  tokens := rfl
  indentOf := by
    funext position
    unfold View.indentOf
    dsimp only [View.of]
    cases ht : (raw.filter isCode)[position]? with
    | none => rfl
    | some t =>
      obtain ⟨hmem, hcode⟩ := Array.mem_filter.mp (Array.mem_of_getElem? ht)
      exact (hraw t hmem (.inl hcode)).lineIndentAt style hsource
  isBrokenList := by
    funext opener comma
    unfold View.isBrokenList
    dsimp only [View.of]
    split
    · next o first c ho hfirst hc =>
      obtain ⟨hmem, hcode⟩ := Array.mem_filter.mp (Array.mem_of_getElem? hfirst)
      rw [Text.slice_of_prefix hsource (hraw first hmem (.inl hcode)).start_le]
    · rfl
  comment t ht hkind := by
    have hstands := hraw t ht (.inr hkind)
    refine ⟨hstands.lineIndentAt style hsource, ?_⟩
    unfold View.startsLine
    dsimp only [View.of]
    rw [Text.before_of_prefix hsource hstands.start_le]

end View

/-! ## Windows -/

/-- `windowStart?` is behind a line feed. -/
theorem windowStart?_eq_some {cs : List Char} {lines start : Nat}
    (h : windowStart? cs lines = some start) :
    ∃ as bs, cs = as ++ '\n' :: bs ∧ start = sizeOfChars (as ++ ['\n']) := by
  rw [windowStart?] at h
  split at h
  · next hlines =>
    obtain ⟨rest, hrest⟩ := Text.joinLines_take
      (k := (Text.splitLines cs).length - 1 - lines) (by omega)
      (show _ < (Text.splitLines cs).length by omega)
    rw [Text.joinLines_splitLines] at hrest
    refine ⟨_, rest, hrest, ?_⟩
    rw [sizeOfChars_append]
    exact (Option.some.inj h).symm
  · cases h

section

variable {mode : Mode} {text window : String} {tokens : Array Token} {as : List Char}
  (hread : tokenizeIn mode window = .ok tokens) (hcut : text.toList = as ++ window.toList)
include hread hcut

variable {t : Token}

/-- What matters in a window `StandsIn` the text that the window ends. -/
theorem standsIn_window (ht : t ∈ tokens) (hkind : isCode t = true ∨ t.kind.isComment = true) :
    StandsIn text { t with start := t.start + sizeOfChars as } := by
  obtain ⟨xs, hlex, rfl⟩ := tokenizeIn_eq_ok_iff.mp hread
  have hne : t.kind ≠ .whitespace ∧ t.kind ≠ .inlineHtml ∧ t.kind ≠ .eof := by
    refine ⟨?_, ?_, ?_⟩ <;> intro hk <;> simp [isCode, hk, TokenKind.isComment] at hkind
  obtain ⟨i, hi⟩ := getElem?_of_mem (Array.mem_toList_iff.mpr ht)
  obtain ⟨x, -, hxs, rfl⟩ := placed_token_at hi hne.2.2
  rw [hxs] at hlex
  obtain ⟨rest, hwindow, htext, -⟩ := hlex.rule_at
  have hbare := hlex.bare hne.1 hne.2.1
  refine ⟨as ++ (xs.take i).flatMap Lexeme.text, x.text ++ rest, ?_, ?_, hbare.append htext,
    append_ne_nil_of_left_ne_nil htext rest⟩
  · rw [hcut, hwindow, append_assoc]
  · rw [sizeOfChars_append, Nat.add_comm]
    rfl

/-- There is no `closeTag` in a text without its characters. -/
theorem kind_ne_closeTag (hclose : ¬ ['?', '>'] <:+: text.toList) (ht : t ∈ tokens) :
    t.kind ≠ .closeTag := by
  intro hkind
  obtain ⟨xs, hlex, rfl⟩ := tokenizeIn_eq_ok_iff.mp hread
  obtain ⟨i, hi⟩ := getElem?_of_mem (Array.mem_toList_iff.mpr ht)
  obtain ⟨x, -, hxs, rfl⟩ := placed_token_at hi (by rw [hkind]; decide)
  rw [hxs] at hlex
  obtain ⟨rest, hwindow, -⟩ := hlex.rule_at
  rw [hlex.text_of_closeTag hkind] at hwindow
  refine hclose ⟨as ++ (xs.take i).flatMap Lexeme.text, rest, ?_⟩
  rw [hcut, hwindow]
  simp

/-- By the tokens of a window, `predict` is the same where the text goes on. -/
theorem predict_append {source : String} (hsource : text.toList <+: source.toList)
    (style : Style) (caret : Nat) (hclose : ¬ ['?', '>'] <:+: text.toList) :
    (View.of source style (tokens.map fun t =>
        { t with start := t.start + sizeOfChars as })).predict caret =
      (View.of text style (tokens.map fun t =>
        { t with start := t.start + sizeOfChars as })).predict caret := by
  refine (View.sameLines_of_prefix hsource style fun t ht hkind => ?_).predict caret fun t ht => ?_
  · obtain ⟨u, hu, rfl⟩ := Array.mem_map.mp ht
    exact standsIn_window hread hcut hu hkind
  · obtain ⟨u, hu, rfl⟩ := Array.mem_map.mp (Array.mem_filter.mp ht).1
    exact kind_ne_closeTag hread hcut hclose (t := u) hu

end

section

variable {text source : String} (hsource : text.toList <+: source.toList) (style : Style)
  (hclose : ¬ ['?', '>'] <:+: text.toList)
include hsource hclose

theorem predictWindow?_of_prefix {as bs : List Char} (htext : text.toList = as ++ bs) :
    predictWindow? source (sizeOfChars as) (Text.size text) style =
      predictWindow? text (sizeOfChars as) (Text.size text) style := by
  have hsize : Text.size text = sizeOfChars as + sizeOfChars bs := by
    rw [← sizeOfChars_toList, htext, sizeOfChars_append]
  have hslice : Text.slice text (sizeOfChars as) (Text.size text) = String.ofList bs := by
    rw [hsize, Text.slice_of_toList (by rw [htext, append_nil])]
  unfold predictWindow?
  rw [Text.slice_of_prefix hsource (Nat.le_refl _), Text.before_of_prefix hsource (by omega), hslice]
  dsimp only
  simp only [Option.bind_eq_bind]
  split
  · rw [Option.bind_none, Option.bind_none]
  · cases hread : tokenizeIn (if endsInCode (Text.before text (sizeOfChars as)).toList
        then .code else .markup) (String.ofList bs) with
    | error e => simp only [Except.toOption, Option.bind_none]
    | ok tokens =>
      simp only [Except.toOption, Option.bind_some]
      rw [predict_append hread (by rw [htext, String.toList_ofList]) hsource style _ hclose]

/-- `predictIndent` behind a text is the same in a source that goes on. -/
theorem predictIndent_append {raw : Array Token} (hread : tokenize text = .ok raw) :
    predictIndent source (Text.size text) style = predictIndent text (Text.size text) style := by
  obtain ⟨ds, hds⟩ := hsource
  have hboundary : Text.isBoundary source (Text.size text) = true :=
    Text.isBoundary_iff.mpr ⟨text.toList, ds, hds.symm, sizeOfChars_toList text⟩
  have hle : Text.size text ≤ Text.size source := by
    rw [← sizeOfChars_toList source, ← hds, sizeOfChars_append, sizeOfChars_toList]
    exact Nat.le_add_right _ _
  have hprefix : text.toList <+: source.toList := ⟨ds, hds⟩
  have hwindow (lines : Nat) :
      (do predictWindow? source (← windowStart? text.toList lines) (Text.size text) style) =
        (do predictWindow? text (← windowStart? text.toList lines) (Text.size text) style) := by
    cases hstart : windowStart? text.toList lines with
    | none => rfl
    | some start =>
      obtain ⟨as, bs, htext, rfl⟩ := windowStart?_eq_some hstart
      have hcut : text.toList = (as ++ ['\n']) ++ bs := by
        rw [htext, append_assoc]
        rfl
      exact predictWindow?_of_prefix hprefix style hclose hcut
  have hfull := predict_append hread (show text.toList = [] ++ text.toList from rfl) hprefix
    style (Text.size text) hclose
  simp only [sizeOfChars_nil, Nat.add_zero, Array.map_id'] at hfull
  unfold predictIndent
  rw [Nat.min_eq_left hle, Nat.min_self, Text.floorBoundary_of_isBoundary hboundary,
    Text.floorBoundary_of_isBoundary (Text.isBoundary_size text)]
  dsimp only
  rw [Text.before_of_prefix hprefix (Nat.le_refl _), Text.before_size, funext hwindow, hread]
  dsimp only
  rw [hfull]

end

/-- Behind a text that can be read and that holds no close tag, the indent of a new line depends on
nothing that follows: it is the same in all sources that start with the text. -/
theorem predictIndent_of_prefix {text : String} {raw : Array Token}
    (hread : tokenize text = .ok raw) (hclose : ¬ ['?', '>'] <:+: text.toList) (style : Style)
    {source other : String} (hsource : text.toList <+: source.toList)
    (hother : text.toList <+: other.toList) :
    predictIndent source (Text.size text) style = predictIndent other (Text.size text) style := by
  rw [predictIndent_append hsource style hclose hread, predictIndent_append hother style hclose hread]

/-- Behind the first element of a broken list, far below the open tag, where the line goes on in one
source and ends in the other. -/
theorem predictIndent_of_prefix_list :
    ∃ raw, tokenize "<?php\n\n\n\n\n\n\n\n\n\tf(\n\t\t'a'," = .ok raw ∧
      ¬ ['?', '>'] <:+: "<?php\n\n\n\n\n\n\n\n\n\tf(\n\t\t'a',".toList ∧
      predictIndent "<?php\n\n\n\n\n\n\n\n\n\tf(\n\t\t'a', 'b'); ?>" 24 {} =
        predictIndent "<?php\n\n\n\n\n\n\n\n\n\tf(\n\t\t'a',\n\n" 24 {} ∧
      predictIndent "<?php\n\n\n\n\n\n\n\n\n\tf(\n\t\t'a',\n\n" 24 {} = 16 := by
  have hread : (tokenize "<?php\n\n\n\n\n\n\n\n\n\tf(\n\t\t'a',").toOption.isSome = true := by
    decide +kernel
  have hclose : ¬ ['?', '>'] <:+: "<?php\n\n\n\n\n\n\n\n\n\tf(\n\t\t'a',".toList := by
    decide +kernel
  have hsize : Text.size "<?php\n\n\n\n\n\n\n\n\n\tf(\n\t\t'a'," = 24 := by decide +kernel
  cases h : tokenize "<?php\n\n\n\n\n\n\n\n\n\tf(\n\t\t'a'," with
  | error e =>
      rw [h] at hread
      cases hread
  | ok raw =>
      refine ⟨raw, rfl, hclose, ?_, by decide +kernel⟩
      rw [← hsize]
      exact predictIndent_of_prefix h hclose {} (by decide +kernel) (by decide +kernel)

/-- `newLineEdit` puts a line feed and blanks between what stands in front of the caret and what
stands behind it, and the line goes on at the indent. -/
theorem apply_newLineEdit {source : String} {as bs : List Char}
    (hsource : source.toList = as ++ bs) (style : Style) :
    ∃ blanks, Edit.apply source [newLineEdit source (sizeOfChars as) style] =
        .ok (String.ofList (as ++ '\n' :: blanks ++ bs)) ∧
      (∀ c ∈ blanks, Text.isTabOrSpace c = true) ∧
      style.columnOf (as ++ '\n' :: blanks) = predictIndent source (sizeOfChars as) style := by
  generalize hwidth : predictIndent source (sizeOfChars as) style = width
  refine ⟨(style.indentString width).toList, ?_, Render.indentString_blank style width, ?_⟩
  · have hcut : source.toList = as ++ [] ++ bs := by rw [hsource, append_nil]
    have hedit := Edit.apply_singleton ('\n' :: (style.indentString width).toList) hcut
    rw [String.ofList_cons, String.ofList_toList] at hedit
    rw [newLineEdit, hwidth]
    exact hedit
  · have hline : Text.lastLine (as ++ ['\n']) = [] := by simp [Text.lastLine]
    have hcolumn := style.columnOf_append_indentString hline width
    rwa [append_assoc, singleton_append] at hcolumn

end Indent

end CodeLayout
