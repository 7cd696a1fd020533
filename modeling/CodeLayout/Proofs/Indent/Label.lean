import CodeLayout.Proofs.Grammar.Outline
import CodeLayout.Proofs.Grammar.Whole
import CodeLayout.Proofs.Indent.Caret
import CodeLayout.Proofs.Indent.Window
import CodeLayout.Proofs.Token.Colon

/-!
# Labels of cases

Behind a colon the tokens before it tell whether a label of a case ends there: the look goes back to
the word of the case, over closed pairs and over everything that ends no expression.  The label of a
case in the tree may be any expression, and a question mark outside of a pair is enough to stop the
look.  For the labels that it gets over (`isPlainLabel`) the indent is the one of the body of a case,
in every source without syntax problems (`predictIndent_caseLabel`).

The windows of the predictor have to start at a token or among blanks (`Fits`).  In one that starts
inside of a string, the tokens are not those of the source.
-/

namespace CodeLayout

open List
open Text (sizeOfChars sizeOfChars_append sizeOfChars_toList)
open Lexer (place place_append)

/-- `codeRule` reads blanks in front of a character that is none as one token. -/
theorem Lexeme.codeRule_blank {bs rest : List Char} (hblank : ∀ c ∈ bs, isBlank c = true)
    (hne : bs ≠ []) (hrest : Text.Bare rest) :
    codeRule (bs ++ rest) = some (.whitespace, bs.length) := by
  have hlength : ((bs ++ rest).takeWhile isBlank).length = bs.length := by
    rw [Text.Bare.takeWhile_append hblank hrest]
  obtain ⟨c, bs, rfl⟩ := exists_cons_of_ne_nil hne
  have hclose : closeTagRule (c :: bs ++ rest) = none := by
    rw [cons_append, closeTagRule]
    rintro _ heq
    have hc := hblank c (.head _)
    rw [(List.cons.inj heq).1] at hc
    cases hc
  have hread : blankRule (c :: bs ++ rest) = some (.whitespace, (c :: bs).length) := by
    rw [blankRule, hlength]
    rfl
  rw [codeRule, hclose, hread]
  rfl

/-- The first leaf of a case is its word, and stands before the colon of its label. -/
theorem Tree.Whole.word_of_colon {kindOf : Nat → Option TokenKind} {cs : List Tree}
    (hwhole : Whole kindOf .caseClause cs) (hsorted : (leavesAll cs).Pairwise (· < ·)) {i j : Nat}
    (hi : (leavesAll cs).head? = some i) {u : Tree} (hu : u ∈ cs) (hj : u.leafIndex? = some j)
    (hcolon : kindOf j = some .colon) : i < j ∧ ∃ kind ∈ caseWords, kindOf i = some kind := by
  obtain ⟨word, label, sign, items, hcut, ⟨kind, hkind, hword⟩, hitems⟩ := hwhole
  cases word with
  | node => exact hword.elim
  | leaf i' v =>
    cases u with
    | node => cases hj
    | leaf j' w =>
      cases hj
      -- only the sign that ends the label is a colon
      have hends : IsOneOf kindOf labelEnds (.leaf j w) := ⟨.colon, by decide, hcolon⟩
      rw [hcut.eq] at hu hsorted hi
      have hsign : .leaf j w = sign := by
        rcases mem_append.mp hu with hu | hu
        · exact absurd hends (hcut.front _ hu)
        · rcases List.mem_cons.mp hu with hu | hu
          · exact hu
          · cases hitems _ hu
      subst hsign
      rw [cons_append, leavesAll_cons, leaves_leaf, singleton_append] at hsorted hi
      cases hi
      refine ⟨(pairwise_cons.mp hsorted).1 j ?_, kind, hkind, hword⟩
      simp

namespace Indent

/-- The kinds of the tokens that matter to the indent. -/
def codeKinds (ts : List Token) : List TokenKind := (ts.filter isCode).map Token.kind

/-- Inside of so many pairs, the rest of a label closes them and those that it opens, and outside of
pairs it has nothing that a look back from its end would stop at. -/
def isPlainLabel (depth : Nat) : List TokenKind → Bool
  | [] => depth == 0
  | k :: rest =>
    match k, depth with
    | .parenBegin, _ | .arrayBegin, _ => isPlainLabel (depth + 1) rest
    | .parenEnd, 0 | .arrayEnd, 0 => false
    | .parenEnd, n + 1 | .arrayEnd, n + 1 => isPlainLabel n rest
    | _, _ + 1 => isPlainLabel depth rest
    | .caseKw, 0 | .defaultKw, 0 | .question, 0 | .colon, 0 => false
    | k, 0 => !isScopeDelimiter k && isPlainLabel 0 rest

/-- The offset is a start for a window on the tokens: one of them starts there, or there are blanks
around it, and the text before it tells rightly whether it lies in a section. -/
def Fits (source : String) (ts : List Token) (start : Nat) : Prop :=
  ∃ k t, ts[k]? = some t ∧
    (start = t.start ∨ t.kind = .whitespace ∧ t.start < start ∧ start < t.stop) ∧
    endsInCode (Text.before source start).toList = insideAfter false ((ts.take k).map Token.kind)

/-! ## Kinds -/

theorem codeKinds_append (ts us : List Token) :
    codeKinds (ts ++ us) = codeKinds ts ++ codeKinds us := by
  rw [codeKinds, filter_append, map_append, codeKinds, codeKinds]

/-- For `codeKinds` it does not matter where the tokens stand. -/
theorem codeKinds_place (n : Nat) (xs : List Lexeme) : codeKinds (place n xs) =
    (xs.map Lexeme.kind).filter fun k => isCode ⟨k, 0, 0⟩ := by
  rw [← kinds_place n xs, filter_map]
  rfl

/-- `endsCaseLabel` passes over a plain label. -/
theorem endsCaseLabel_of_isPlainLabel {depth : Nat} {label : List TokenKind}
    (h : isPlainLabel depth label = true) (rest : List TokenKind) :
    endsCaseLabel 0 (label.reverse ++ rest) = endsCaseLabel depth rest := by
  induction label generalizing depth rest with
  | nil =>
    rw [isPlainLabel] at h
    rw [eq_of_beq h]
    rfl
  | cons k label ih =>
    rw [reverse_cons, append_assoc, singleton_append]
    unfold isPlainLabel at h
    split at h
    case h_1 | h_2 => rw [ih h]; rfl
    case h_5 | h_6 => rw [ih h]; rfl
    case h_7 =>
      rw [ih h, endsCaseLabel]
      all_goals assumption
    case h_12 =>
      obtain ⟨hdelimiter, hlabel⟩ := Bool.and_eq_true_iff.mp h
      rw [ih hlabel, endsCaseLabel, if_neg (by simpa using hdelimiter)]
      all_goals assumption
    all_goals cases h

/-- `endsCaseLabel` behind the word of a plain label. -/
theorem endsCaseLabel_of_word {ts : List Token} {i : Nat} {t : Token} (ht : ts[i]? = some t)
    (hword : t.kind ∈ Tree.caseWords)
    (hlabel : isPlainLabel 0 (codeKinds (ts.drop (i + 1))) = true) :
    endsCaseLabel 0 (codeKinds ts).reverse = pure true := by
  obtain ⟨hi, rfl⟩ := List.getElem?_eq_some_iff.mp ht
  have hcode : codeKinds [ts[i]] = [ts[i].kind] := by
    rcases List.mem_cons.mp hword with hkind | hkind
    · simp [codeKinds, isCode, hkind, TokenKind.isComment]
    · simp [codeKinds, isCode, mem_singleton.mp hkind, TokenKind.isComment]
  rw [← take_append_drop i ts, drop_eq_getElem_cons hi, ← singleton_append,
    codeKinds_append, codeKinds_append, hcode, reverse_append, reverse_append,
    append_assoc, endsCaseLabel_of_isPlainLabel hlabel]
  rcases List.mem_cons.mp hword with hkind | hkind
  · rw [hkind]
    rfl
  · rw [mem_singleton.mp hkind]
    rfl

/-! ## The rule for a colon -/

section

variable {source : String} {style : Style} {raw : Array Token} {front : List Token}
  {colon eof : Token} (hraw : raw.toList = front ++ [colon, eof]) (hcolon : colon.kind = .colon)
  (heof : eof.kind = .eof)
include hraw hcolon heof

theorem View.predict_colon (caret : Nat) : (View.of source style raw).predict caret = (do
    if ← endsCaseLabel 0 (codeKinds front).reverse then
      return Render.lineIndentAt style source colon.start + style.indent.indentSize
    return (← (View.of source style raw).expressionIndent (codeKinds front).length) +
      style.indent.continuationSize) := by
  have htokens : (View.of source style raw).tokens.toList = front.filter isCode ++ [colon] := by
    show (raw.filter isCode).toList = _
    rw [Array.toList_filter, hraw, filter_append]
    simp [isCode, hcolon, heof, TokenKind.isComment]
  have hsize : (View.of source style raw).tokens.size - 1 = (codeKinds front).length := by
    rw [← Array.length_toList, htokens, codeKinds]
    simp
  have hlast : (View.of source style raw).tokens[(codeKinds front).length]? = some colon := by
    rw [← Array.getElem?_toList, htokens, codeKinds, length_map]
    simp
  have hback : (View.of source style raw).back (codeKinds front).length =
      (codeKinds front).reverse := by
    rw [View.back, htokens, codeKinds, length_map, take_left]
  have hindent : (View.of source style raw).indentOf (codeKinds front).length =
      Render.lineIndentAt style source colon.start := by
    rw [View.indentOf, hlast]
    rfl
  have hcomment : (View.of source style raw).lastComment? = none := by
    show (raw.toList.reverse.find? _ >>= _) = none
    rw [hraw]
    simp [hcolon, heof, TokenKind.isComment]
  unfold View.predict
  rw [hcomment, Array.back?_eq_getElem?, hsize, hlast]
  show View.afterToken _ caret _ colon.kind = _
  rw [hcolon, View.afterToken, hback, hindent]
  rfl

/-- If all kinds before the colon show a label, then `predict` from the last of them, if it gets by
with these, answers the indent of the body. -/
theorem View.agrees_predict_label {caret : Nat} {more : List TokenKind}
    (hlabel : endsCaseLabel 0 (more ++ codeKinds front).reverse = pure true) :
    Agrees Eq ((View.of source style raw).predict caret)
      (pure (Render.lineIndentAt style source colon.start + style.indent.indentSize)) := by
  generalize hanswer : Render.lineIndentAt style source colon.start + style.indent.indentSize = answer
  have hfull : (pure answer : Look Nat) =
      endsCaseLabel 0 ((codeKinds front).reverse ++ more.reverse) >>= fun _ => pure answer := by
    rw [← reverse_append, hlabel]
    rfl
  rw [View.predict_colon hraw hcolon heof, hanswer]
  refine (congrArg (Agrees Eq _) hfull).mpr ?_
  refine (agrees_endsCaseLabel more.reverse 0 _).bind
    (fun _ => .ite .pure (.bind (Window.steady_expressionIndent _ _) fun _ => .pure)) ?_
  rintro label _ - hrun rfl
  rw [← reverse_append, hlabel] at hrun
  cases hrun
  exact .pure rfl

end

/-! ## Windows -/

section

variable {source text : String} {xs : List Lexeme} {c : Lexeme} {as bs : List Char}
  (hlex : Lexer.Lexes .markup (xs ++ [c]) text.toList) (hcolon : c.kind = .colon)
  (hcut : text.toList = as ++ bs)
include hlex hcolon hcut

/-- The tokens of a window that `Fits` are the last ones of the text, apart from blanks in front of
them. -/
theorem lexes_window
    (hfits : Fits source (place 0 (xs ++ [c])) (sizeOfChars as)) :
    ∃ zs more,
      Lexer.Lexes (if endsInCode (Text.before source (sizeOfChars as)).toList then .code
        else .markup) (zs ++ [c]) bs ∧
      codeKinds (place 0 xs) = more ++ codeKinds (place 0 zs) := by
  obtain ⟨k, t, ht, hstart, hmode⟩ := hfits
  rw [Lexer.place_getElem?, Option.map_eq_some_iff] at ht
  obtain ⟨x, hx, rfl⟩ := ht
  rw [map_take, kinds_place, ← map_take] at hmode
  have hk : k ≤ xs.length := by
    have := (List.getElem?_eq_some_iff.mp hx).1
    rw [List.length_append, List.length_singleton] at this
    omega
  have htake : (xs ++ [c]).take k = xs.take k := take_append_of_le_length hk
  have hafter := Mode.eq_ite_code _ _ (Mode.markup.after_eq_code_iff (xs.take k))
  have hsplit (m : Nat) : codeKinds (place 0 xs) =
      codeKinds (place 0 (xs.take m)) ++ codeKinds (place 0 (xs.drop m)) := by
    rw [codeKinds_place, codeKinds_place, codeKinds_place, ← filter_append, ← map_append,
      take_append_drop]
  rw [htake] at hmode
  rw [hmode, show insideAfter false _ = insideAfter (Mode.markup == .code) _ from rfl, ← hafter]
  simp only [Lexer.start, htake, Nat.zero_add] at hstart
  rcases hstart with hstart | ⟨hkind, hlt, hgt⟩
  · -- the window starts at a token
    rw [← take_append_drop k (xs ++ [c]), htake, drop_append_of_le_length hk] at hlex
    obtain ⟨rest, htext, hrest⟩ := hlex.append_inv
    obtain ⟨-, rfl⟩ := Text.append_inj_of_size (hcut.symm.trans htext) hstart
    exact ⟨xs.drop k, _, hrest, hsplit k⟩
  · -- it starts among blanks, and the rest of them is a token of its own
    have hk : k < xs.length := by
      refine Nat.lt_of_le_of_ne hk ?_
      rintro rfl
      rw [getElem?_concat_length] at hx
      cases hx
      exact absurd (hcolon.symm.trans hkind) (by decide)
    obtain rfl : xs[k] = x := by
      rw [getElem?_append_left hk, getElem?_eq_getElem hk] at hx
      exact Option.some.inj hx
    have hxs : xs ++ [c] = xs.take k ++ xs[k] :: (xs.drop (k + 1) ++ [c]) := by
      rw [← cons_append, ← drop_eq_getElem_cons hk, ← append_assoc,
        take_append_drop]
    have hblank := hlex.blank (mem_append_left _ (getElem_mem hk)) hkind
    rw [hxs] at hlex
    obtain ⟨rest, htext, -, hrule, hrest⟩ := hlex.rule_at
    obtain ⟨front, hfront, hbs⟩ := Text.append_split_of_size_le (htext.symm.trans hcut) hlt.le
    have hsize : sizeOfChars front < sizeOfChars xs[k].text := by
      rw [hfront, sizeOfChars_append] at hgt
      exact Nat.lt_of_add_lt_add_left hgt
    obtain ⟨back, hback, rfl⟩ := Text.append_split_of_size_le hbs.symm hsize.le
    have hne : back ≠ [] := by
      rintro rfl
      rw [hback, append_nil] at hsize
      exact absurd hsize (Nat.lt_irrefl _)
    rw [hkind] at hrule hrest
    have hcode : Mode.markup.after (xs.take k) = .code := by
      cases hmode : Mode.markup.after (xs.take k) with
      | code => rfl
      | markup =>
        rw [hmode] at hrule
        cases Lexeme.isMarkup_of_markupRule hrule
    rw [hcode] at hrule hrest ⊢
    have hbare : Text.Bare rest := by
      have hlen := (Lexeme.blankRule_spec (Lexeme.codeRule_family hrule)).2.1
      rw [takeWhile_append_of_pos hblank, List.length_append, Nat.left_eq_add,
        length_eq_zero_iff, takeWhile_eq_nil_iff] at hlen
      intro d hd
      obtain ⟨tail, rfl⟩ := head?_eq_some_iff.mp hd
      exact Bool.eq_false_iff.mpr (hlen (Nat.zero_lt_succ _))
    refine ⟨⟨.whitespace, back⟩ :: xs.drop (k + 1), codeKinds (place 0 (xs.take (k + 1))),
      ?_, ?_⟩
    · refine .cons hne (Lexeme.codeRule_blank (fun c hc => hblank c ?_) hne hbare) hrest
      rw [hback]
      exact mem_append_right _ hc
    · rw [hsplit (k + 1), codeKinds_place 0 (_ :: _), map_cons,
        filter_cons_of_neg (Bool.false_ne_true), ← codeKinds_place 0]

end

theorem toList_placed_shift (n : Nat) (xs : List Lexeme) :
    ((placed xs).map fun t => { t with start := t.start + n }).toList =
      place n xs ++ [⟨.eof, Lexer.start xs xs.length + n, 0⟩] := by
  have hplace (m : Nat) : (place m xs).map (fun t => { t with start := t.start + n }) =
      place (m + n) xs := by
    induction xs generalizing m with
    | nil => rfl
    | cons x xs ih => rw [place, place, map_cons, ih, Nat.add_right_comm]
  rw [Array.toList_map, toList_placed, map_append, hplace, Nat.zero_add, map_singleton]

section

variable {source : String} {xs ys : List Lexeme} {c : Lexeme} {caret : Nat} (style : Style)
  (hlex : Lexer.Lexes .markup (xs ++ c :: ys) source.toList) (hcolon : c.kind = .colon)
  (hlabel : endsCaseLabel 0 (codeKinds (place 0 xs)).reverse = pure true)
  (hcaret : caret = sizeOfChars ((xs ++ [c]).flatMap Lexeme.text))
include hlex hcolon hlabel hcaret

/-- `predictWindow?` behind the colon of a label answers the indent of the body, if it answers at
all. -/
theorem predictWindow?_colon {as bs : List Char}
    (hcut : (xs ++ [c]).flatMap Lexeme.text = as ++ bs)
    (hfits : Fits source (place 0 (xs ++ [c])) (sizeOfChars as)) {indent : Nat}
    (hindent : predictWindow? source (sizeOfChars as) caret style = some indent) :
    indent = Render.lineIndentAt style source (sizeOfChars (xs.flatMap Lexeme.text)) +
      style.indent.indentSize := by
  have hsource : source.toList = as ++ bs ++ ys.flatMap Lexeme.text := by
    rw [← hlex.flatMap_text, ← hcut, ← flatMap_append, append_assoc, singleton_append]
  obtain ⟨zs, more, hzs, hkinds⟩ := lexes_window
    (by rw [String.toList_ofList]; exact hlex.up_to_colon hcolon) hcolon
    (by rw [String.toList_ofList, hcut]) hfits
  obtain ⟨tokens, htokens, hpredict⟩ := predictWindow?_eq_some hindent
  rw [hcaret, hcut, sizeOfChars_append, Text.slice_of_toList hsource,
    tokenizeIn_eq_ok_iff.mpr ⟨_, by rwa [String.toList_ofList], rfl⟩] at htokens
  cases htokens
  -- the colon of the window is the one of the text
  have hstart : sizeOfChars as + sizeOfChars (zs.flatMap Lexeme.text) =
      sizeOfChars (xs.flatMap Lexeme.text) := by
    have hsize := congrArg sizeOfChars hcut
    rw [← hzs.flatMap_text] at hsize
    simp only [flatMap_append, sizeOfChars_append] at hsize
    omega
  have hraw := toList_placed_shift (sizeOfChars as) (zs ++ [c])
  rw [place_append, append_assoc, hstart] at hraw
  rw [hkinds, codeKinds_place 0 zs, ← codeKinds_place (sizeOfChars as) zs] at hlabel
  obtain ⟨answer, hrun, rfl⟩ :=
    View.agrees_predict_label hraw hcolon rfl hlabel indent hpredict
  cases hrun
  rfl

/-- `predictIndent` behind the colon of a label answers the indent of the body. -/
theorem predictIndent_colon
    (hwindows : ∀ lines ∈ windowSizes (Render.newlines (Text.before source caret)), ∀ start,
      windowStart? (Text.before source caret).toList lines = some start →
        Fits source (place 0 (xs ++ [c])) start) :
    predictIndent source caret style =
      Render.lineIndentAt style source (sizeOfChars (xs.flatMap Lexeme.text)) +
        style.indent.indentSize := by
  have hsource : source.toList = (xs ++ [c]).flatMap Lexeme.text ++ ys.flatMap Lexeme.text := by
    rw [← hlex.flatMap_text, ← flatMap_append, append_assoc, singleton_append]
  have hbefore : Text.before source caret = String.ofList ((xs ++ [c]).flatMap Lexeme.text) := by
    rw [hcaret, Text.before_of_toList hsource]
  have hread : tokenize (Text.before source caret) = .ok (placed (xs ++ [c])) := by
    refine tokenizeIn_eq_ok_iff.mpr ⟨_, ?_, rfl⟩
    rw [hbefore, String.toList_ofList]
    exact hlex.up_to_colon hcolon
  have hboundary : Text.isBoundary source caret = true :=
    Text.isBoundary_iff.mpr ⟨_, _, hsource, hcaret.symm⟩
  have hle : caret ≤ Text.size source := by
    rw [hcaret, ← sizeOfChars_toList source, hsource, sizeOfChars_append]
    exact Nat.le_add_right _ _
  unfold predictIndent
  rw [Nat.min_eq_left hle, Text.floorBoundary_of_isBoundary hboundary]
  dsimp only
  rw [hread]
  split
  · next indent hfound =>
    obtain ⟨lines, hlines, hindent⟩ := exists_of_findSome?_eq_some hfound
    obtain ⟨start, hstart, hindent⟩ := Option.bind_eq_some_iff.mp hindent
    have hfits := hwindows lines hlines start hstart
    obtain ⟨as, bs, hcut, rfl⟩ := windowStart?_eq_some hstart
    rw [hbefore, String.toList_ofList, append_cons as] at hcut
    exact predictWindow?_colon style hlex hcolon hlabel hcaret hcut hfits hindent
  · have hraw := toList_placed (xs ++ [c])
    rw [place_append, append_assoc, Nat.zero_add] at hraw
    dsimp only
    rw [View.predict_colon hraw hcolon rfl, hlabel]
    rfl

end

/-- Behind the colon of a case, in a source without syntax problems, a line starts one step deeper
than the line of the colon, if the label is plain and every window that is read starts where it may. -/
theorem predictIndent_caseLabel {source : String} {parsed : Parsed}
    (hparsed : Parsed.ofSource source = .ok parsed) (herrors : parsed.errors = []) (style : Style)
    {t u : Tree} (ht : t ∈ parsed.tree.subtrees) (hkind : t.isKind .caseClause = true) {i j : Nat}
    (hi : t.first? = some i) (hu : u ∈ t.children) (hj : u.leafIndex? = some j) {colon : Token}
    (hcolon : parsed.tokens[j]? = some colon) (hsign : colon.kind = .colon)
    (hlabel : isPlainLabel 0 (codeKinds ((parsed.tokens.toList.take j).drop (i + 1))) = true)
    (hwindows : ∀ lines ∈ windowSizes (Render.newlines (Text.before source colon.stop)), ∀ start,
      windowStart? (Text.before source colon.stop).toList lines = some start →
        Fits source (parsed.tokens.toList.take (j + 1)) start) :
    predictIndent source colon.stop style =
      Render.lineIndentAt style source colon.start + style.indent.indentSize := by
  obtain ⟨xs, hlex, rfl⟩ := Parsed.ofSource_eq_ok_iff.mp hparsed
  change (placed xs)[j]? = some colon at hcolon
  change isPlainLabel 0 (codeKinds (((placed xs).toList.take j).drop (i + 1))) = true at hlabel
  -- the word of the case stands before the colon
  obtain ⟨hij, word, hwords, hword⟩ : i < j ∧ ∃ kind ∈ Tree.caseWords,
      Parsed.kindOf (placed xs) i = some kind := by
    have hsorted := Tree.sorted_of_mem_subtrees (Parsed.ofTokens_spec xs).1 ht
    cases t with
    | leaf => cases hkind
    | node kind w cs =>
        obtain rfl : kind = .caseClause := by simpa [Tree.isKind, Tree.kind?] using hkind
        rw [Tree.first?_eq_head?, Tree.leaves_node] at hi
        rw [Tree.leaves_node] at hsorted
        have hwhole := Tree.Every.of_mem_subtrees _ (Parsed.whole_of_errors herrors) _ _ _ ht
        refine hwhole.word_of_colon hsorted hi hu hj ?_
        rw [Parsed.kindOf, Array.getD_eq_getD_getElem?, hcolon, ← hsign]
        rfl
  obtain ⟨c, hlt, hxs, rfl⟩ := placed_token_at (by rwa [Array.getElem?_toList])
    (by rw [hsign]; decide)
  have htake (n : Nat) (hn : n ≤ xs.length) :
      (placed xs).toList.take n = Lexer.place 0 (xs.take n) := by
    have hlength : (Lexer.place 0 (xs.take n)).length = n := by
      rw [Lexer.place_length, List.length_take_of_le hn]
    rw [toList_placed, List.take_append_of_le_length (by rwa [Lexer.place_length])]
    conv_lhs => rw [← List.take_append_drop n xs, Lexer.place_append]
    exact List.take_left' hlength
  have hback : endsCaseLabel 0 (codeKinds (Lexer.place 0 (xs.take j))).reverse = pure true := by
    rw [← htake j hlt.le]
    refine endsCaseLabel_of_word (t := (placed xs).getD i default) ?_
      (Option.some.inj hword ▸ hwords) hlabel
    rw [List.getElem?_take_of_lt hij, Array.getElem?_toList, Array.getD_eq_getD_getElem?,
      Array.getElem?_eq_getElem (by rw [placed_size]; omega)]
    rfl
  have htext : xs.take (j + 1) = xs.take j ++ [c] := by
    conv_lhs => rw [hxs, List.append_cons]
    exact List.take_left' (by simp [hlt.le])
  rw [hxs] at hlex
  refine predictIndent_colon style hlex hsign hback ?_ ?_
  · rw [List.flatMap_append, Text.sizeOfChars_append, List.flatMap_singleton]
    rfl
  · rw [← htext, ← htake _ hlt]
    exact hwindows

/-- A label with a choice in parentheses, where the window starts among the blanks in front of it. -/
theorem predictIndent_caseLabel_call : ∃ parsed colon,
    Parsed.ofSource
      "<?php\n  switch ($a) \x7b\n\n\n\n\n\n\n\n\n    case f($b ? 1 : 2) . A::B:\n  \x7d" = .ok parsed ∧
      parsed.errors = [] ∧ parsed.tokens[30]? = some colon ∧ colon.kind = .colon ∧
      predictIndent
        "<?php\n  switch ($a) \x7b\n\n\n\n\n\n\n\n\n    case f($b ? 1 : 2) . A::B:\n  \x7d" colon.stop {} =
          Render.lineIndentAt {}
            "<?php\n  switch ($a) \x7b\n\n\n\n\n\n\n\n\n    case f($b ? 1 : 2) . A::B:\n  \x7d" colon.start +
            ({} : Style).indent.indentSize := by
  generalize hsource :
    "<?php\n  switch ($a) \x7b\n\n\n\n\n\n\n\n\n    case f($b ? 1 : 2) . A::B:\n  \x7d" = source
  have hread : (Parsed.ofSource source).toOption.any (fun p => p.errors.isEmpty &&
      (p.tokens[30]? == some ⟨.colon, 59, 1⟩ && (p.tokens[9]? == some ⟨.whitespace, 21, 13⟩ &&
      (insideAfter false ((p.tokens.toList.take 9).map Token.kind) &&
      (isPlainLabel 0 (codeKinds ((p.tokens.toList.take 30).drop 11)) &&
      p.tree.subtrees.any fun t => t.isKind .caseClause && (t.first? == some 10 &&
        t.children.any fun u => u.leafIndex? == some 30)))))) = true := by
    subst hsource
    decide +kernel
  have hsizes : windowSizes (Render.newlines (Text.before source 60)) = [8] ∧
      windowStart? (Text.before source 60).toList 8 = some 22 ∧
      endsInCode (Text.before source 22).toList = true := by
    subst hsource
    decide +kernel
  obtain ⟨parsed, h, hread⟩ := exists_ok_of_any hread
  simp only [Bool.and_eq_true, beq_iff_eq, List.isEmpty_iff, List.any_eq_true] at hread
  obtain ⟨herrors, hcolon, hblank, hinside, hlabel, t, ht, hkind, hi, u, hu, hj⟩ := hread
  refine ⟨parsed, _, h, herrors, hcolon, rfl, ?_⟩
  refine predictIndent_caseLabel h herrors {} ht hkind hi hu hj hcolon rfl hlabel ?_
  rw [show Token.stop ⟨.colon, 59, 1⟩ = 60 from rfl, hsizes.1]
  intro lines hlines start hstart
  rw [List.mem_singleton.mp hlines, hsizes.2.1] at hstart
  cases hstart
  refine ⟨9, ⟨.whitespace, 21, 13⟩, ?_, .inr ⟨rfl, by decide, by decide⟩, ?_⟩
  · rw [List.getElem?_take_of_lt (by decide), Array.getElem?_toList, hblank]
  · rw [List.take_take, hsizes.2.2]
    exact hinside.symm

/-- A choice outside of parentheses: the look stops at its question mark, and takes the colon for one
inside of an expression. -/
theorem predictIndent_choiceLabel : ∃ parsed t u,
    Parsed.ofSource "<?php\nswitch ($a) \x7b\n    case $b ? 1 : 2:\n\x7d" = .ok parsed ∧
      parsed.errors = [] ∧ t ∈ parsed.tree.subtrees ∧ t.isKind .caseClause = true ∧
      u ∈ t.children ∧ u.leafIndex? = some 21 ∧ parsed.tokens[21]? = some ⟨.colon, 39, 1⟩ ∧
      Render.lineIndentAt {} "<?php\nswitch ($a) \x7b\n    case $b ? 1 : 2:\n\x7d" 39 = 4 ∧
      predictIndent "<?php\nswitch ($a) \x7b\n    case $b ? 1 : 2:\n\x7d" 40 {} = 12 := by
  have hread : (Parsed.ofSource "<?php\nswitch ($a) \x7b\n    case $b ? 1 : 2:\n\x7d").toOption.any
      (fun p => p.errors.isEmpty && (p.tokens[21]? == some ⟨.colon, 39, 1⟩ &&
        p.tree.subtrees.any fun t => t.isKind .caseClause &&
          t.children.any fun u => u.leafIndex? == some 21)) = true := by
    decide +kernel
  obtain ⟨parsed, h, hread⟩ := exists_ok_of_any hread
  simp only [Bool.and_eq_true, beq_iff_eq, List.isEmpty_iff, List.any_eq_true] at hread
  obtain ⟨herrors, hcolon, t, ht, hkind, u, hu, hj⟩ := hread
  exact ⟨parsed, t, u, h, herrors, ht, hkind, hu, hj, hcolon, by decide +kernel,
    by decide +kernel⟩

end Indent

end CodeLayout
