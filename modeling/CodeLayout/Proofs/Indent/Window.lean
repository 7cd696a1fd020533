import CodeLayout.Proofs.Indent.Scan
import CodeLayout.Proofs.Token.Resume

/-!
# Windows on a text

Only the last lines before the caret are read at first, and more of them if a rule says that it needs
tokens in front.  A window is read as the tail of the text that it is a part of, so its tokens are
the last ones of the whole text (`Window`), and a rule that gets by with them answers what it answers
by all tokens (`agrees_predict`).

There are three exceptions (`Strays`).  The rules for a comma and for a closing parenthesis look at
the one or two tokens in front of the opening sign, and take it that there is none where the window
starts with that sign.  And where brackets and parentheses cross, a scan answers a position that does
not depend on what it has seen.
-/

namespace CodeLayout.Indent

open List

namespace View

/-- The view `w` shows the same text as `v`, but only the last tokens: `n` of those that matter to the
indent are not seen. -/
structure Window (n : Nat) (w v : View) : Prop where
  source : w.source = v.source
  style : w.style = v.style
  raw : ∃ front, v.raw.toList = front ++ w.raw.toList
  code : w.tokens = w.raw.filter isCode
  tokens : ∃ front, front.length = n ∧ v.tokens.toList = front ++ w.tokens.toList

/-- The words before the parentheses of a head. -/
def opensHead (k : TokenKind) : Bool :=
  isControlHeader k || k == .switchKw || k == .catchKw || k == .declareKw

/-- The position of the word that makes a pair of parentheses the head of a statement or of a
function. -/
def headerWord? (v : View) (position : Nat) : Option Nat :=
  if (v.kindBefore? position 1).any opensHead then some (position - 1)
  else if v.kindBefore? position 1 == some .name &&
      v.kindBefore? position 2 == some .functionKw then some (position - 2)
  else none

/-- The rule for the last token depends on one of the first `n` tokens, without a need for it that a
look at the others would notice. -/
inductive Strays (v : View) (n : Nat) : Prop
  /-- The list in front of the comma opens with the next token, and the word before it tells what it
  is a list of. -/
  | list : v.kind? (v.tokens.size - 1) = some .comma →
      ((v.scan (v.tokens.size - 1) false).run false).1 = .opener n → v.kind? n ≠ some .arrayBegin →
      (v.kindBefore? n 1 = some .arrayKw ∨ v.kindBefore? n 1 = some .listKw) → Strays v n
  /-- The pair of parentheses belongs to a word among the first tokens, and opens behind them. -/
  | header (position word : Nat) : v.kind? (v.tokens.size - 1) = some .parenEnd →
      ((openingParen? 0 (v.back (v.tokens.size - 1))).run false).1 = some position →
      v.headerWord? position = some word → word < n → n ≤ position → Strays v n
  /-- Pairs cross in a head behind the first tokens, and the scan takes the first token of all for
  the last one of the head. -/
  | crossed (position keyword : Nat) (stopAtComma : Bool) :
      position = v.tokens.size - 1 ∨ position = v.tokens.size →
      ((v.scan position stopAtComma).run false).1 = .header 0 keyword → n ≤ keyword → 0 < n →
      Strays v n

/-- The same answer, unless the rule strays from the tokens behind the first `n`. -/
def Same (v : View) (n : Nat) (a b : Nat) : Prop := a = b ∨ v.Strays n

/-! ## Heads -/

variable {v : View} {p : Nat}

theorem kindBefore?_eq_some {m : Nat} {k : TokenKind} (h : v.kindBefore? p m = some k) :
    m ≤ p ∧ v.kind? (p - m) = some k := by
  rw [kindBefore?] at h
  split at h
  · next hle => exact ⟨hle, h⟩
  · cases h

/-- `headerWord?` stands right before the parentheses, or before the name in between. -/
theorem headerWord?_eq_some {word : Nat} (h : v.headerWord? p = some word) :
    (∃ k, v.kindBefore? p 1 = some k ∧ opensHead k = true ∧ word + 1 = p) ∨
      v.kindBefore? p 1 = some .name ∧ v.kindBefore? p 2 = some .functionKw ∧ word + 2 = p := by
  unfold headerWord? at h
  split at h
  · next hany =>
    obtain ⟨k, hk, hopens⟩ := (Option.any_eq_true _ _).mp hany
    have := (kindBefore?_eq_some hk).1
    cases h
    exact .inl ⟨k, hk, hopens, by omega⟩
  · split at h
    · next hboth =>
      obtain ⟨hone, htwo⟩ := Bool.and_eq_true_iff.mp hboth
      have := (kindBefore?_eq_some (eq_of_beq htwo)).1
      cases h
      exact .inr ⟨eq_of_beq hone, eq_of_beq htwo, by omega⟩
    · cases h

/-- Behind a closing parenthesis `headerWord?` decides, if there is one. -/
theorem afterParen_eq (v : View) (close : Nat) : v.afterParen close = (do
    match ← openingParen? 0 (v.back close) with
    | none => return v.indentOf close
    | some position =>
      match v.headerWord? position with
      | some word => return v.indentOf word +
          (if (v.kind? word).any isControlHeader then v.style.indent.indentSize else 0)
      | none => return (← v.expressionIndent (close + 1)) + v.style.indent.continuationSize) := by
  unfold afterParen
  congr 1
  funext found
  cases found with
  | none => rfl
  | some position =>
    dsimp only
    unfold headerWord?
    split
    case h_4 hone =>
      rw [hone]
      by_cases htwo : v.kindBefore? position 2 = some .functionKw
      · have hkind := (kindBefore?_eq_some htwo).2
        simp [htwo, hkind, opensHead, isControlHeader]
      · simp [htwo, opensHead, isControlHeader]
    case h_5 k hswitch hcatch hdeclare hname hone =>
      have hkind := (kindBefore?_eq_some hone).2
      rw [hone]
      cases hcontrol : isControlHeader k with
      | true => simp [opensHead, hcontrol, hkind]
      | false =>
        have hopens : opensHead k = false := by
          simp [opensHead, hcontrol, show k ≠ .switchKw from hswitch,
            show k ≠ .catchKw from hcatch, show k ≠ .declareKw from hdeclare]
        simp [hopens, show k ≠ .name from hname]
    case h_6 hone => simp [hone]
    all_goals
      next hone =>
      have hkind := (kindBefore?_eq_some hone).2
      simp [hone, hkind, opensHead, isControlHeader]

namespace Window

variable {n : Nat} {w v : View}

/-! ## What a window shows -/

section

variable (h : Window n w v)
include h

theorem getElem? (p : Nat) : w.tokens[p]? = v.tokens[n + p]? := by
  obtain ⟨front, rfl, htokens⟩ := h.tokens
  rw [← Array.getElem?_toList, ← Array.getElem?_toList, htokens,
    getElem?_append_right (Nat.le_add_right _ _), Nat.add_sub_cancel_left]

theorem size : v.tokens.size = n + w.tokens.size := by
  obtain ⟨front, rfl, htokens⟩ := h.tokens
  simpa using congrArg List.length htokens

theorem lineIndent (offset : Nat) : w.lineIndent offset = v.lineIndent offset := by
  rw [View.lineIndent, View.lineIndent, h.source, h.style]

theorem indentOf (p : Nat) : w.indentOf p = v.indentOf (n + p) := by
  rw [View.indentOf, View.indentOf, h.getElem? p]
  cases v.tokens[n + p]? with
  | none => rfl
  | some t => exact h.lineIndent t.start

theorem kind? (p : Nat) : w.kind? p = v.kind? (n + p) := by
  rw [View.kind?, View.kind?, h.getElem? p]

variable {p last : Nat}

/-- The tokens just before a position, as long as they are seen. -/
theorem kindBefore? {m : Nat} (hm : m ≤ p) : w.kindBefore? p m = v.kindBefore? (n + p) m := by
  rw [View.kindBefore?, View.kindBefore?, if_pos hm, if_pos (by omega), h.kind?,
    Nat.add_sub_assoc hm]

theorem isBrokenList (opener comma : Nat) :
    w.isBrokenList opener comma = v.isBrokenList (n + opener) (n + comma) := by
  rw [View.isBrokenList, View.isBrokenList, h.getElem?, h.getElem?, h.getElem?, h.source,
    Nat.add_assoc]

omit h in
/-- `back` from a position in a window is the nearest part of all kinds before it. -/
theorem back (h : Window n w v) : ∃ front, front.length = n ∧
    ∀ p, v.back (n + p) = w.back p ++ front := by
  obtain ⟨front, rfl, htokens⟩ := h.tokens
  refine ⟨(front.map Token.kind).reverse, by simp, fun p => ?_⟩
  rw [View.back, View.back, htokens, take_append,
    take_of_length_le (Nat.le_add_right _ _), Nat.add_sub_cancel_left, map_append,
    reverse_append]

/-! ## Scans -/

theorem agrees_scan (p : Nat) (stopAtComma : Bool) :
    Agrees (Stop.Moved n) (w.scan p stopAtComma) (v.scan (n + p) stopAtComma) := by
  obtain ⟨front, rfl, hback⟩ := h.back
  rw [scan, scan, hback]
  exact agrees_scanBack front stopAtComma ⟨rfl, rfl, .inr ⟨rfl, rfl⟩⟩ _

omit h in
theorem steady_scan (v : View) (p : Nat) (stopAtComma : Bool) : Steady (v.scan p stopAtComma) :=
  steady_scanBack _ _ _

/-- The token after a stop is the same one, unless the stop was not noted. -/
theorem indentOf_next {stopAtComma : Bool} {a b : Stop}
    (hp : p = v.tokens.size - 1 ∨ p = v.tokens.size)
    (hb : (v.scan p stopAtComma).run false = (b, false)) (hab : Stop.Moved n a b) :
    v.Same n (w.indentOf a.next) (v.indentOf b.next) := by
  cases hab with
  | crossed keyword =>
    by_cases hn : n = 0
    · subst hn
      left
      rw [h.indentOf, Nat.zero_add]
      rfl
    · right
      refine .crossed p (n + keyword) stopAtComma hp ?_ (Nat.le_add_right _ _) (by omega)
      rw [hb]
  | _ => exact .inl (h.indentOf _)

theorem agrees_expressionIndent (hp : n + p = v.tokens.size - 1 ∨ n + p = v.tokens.size) :
    Agrees (v.Same n) (w.expressionIndent p) (v.expressionIndent (n + p)) := by
  refine (h.agrees_scan p true).bind (fun _ => .pure) ?_
  intro a b _ hb hab
  exact .pure (h.indentOf_next hp hb hab)

omit h in
theorem steady_expressionIndent (v : View) (p : Nat) : Steady (v.expressionIndent p) :=
  .bind (steady_scan v p true) fun _ => .pure

/-- The same answer with the same amount added. -/
theorem agrees_expressionIndent_add (size : Nat)
    (hp : n + p = v.tokens.size - 1 ∨ n + p = v.tokens.size) :
    Agrees (v.Same n) (do return (← w.expressionIndent p) + size)
      (do return (← v.expressionIndent (n + p)) + size) := by
  refine (h.agrees_expressionIndent hp).bind (fun _ => .pure) ?_
  rintro a b - - (rfl | hstrays)
  · exact .pure (.inl rfl)
  · exact .pure (.inr hstrays)

/-! ## Rules -/

omit h in
theorem steady_outermostHeader (v : View) (f keyword : Nat) :
    Steady (v.outermostHeader f keyword) := by
  induction f generalizing keyword with
  | zero => exact .pure
  | succ f ih =>
    refine .bind (steady_scan _ _ _) fun stop => ?_
    cases stop with
    | header last outer => exact ih outer
    | _ => exact .pure

/-- `outermostHeader` is the same one: the keyword of each head stands before the one that is
inside. -/
theorem agrees_outermostHeader {f f' keyword : Nat} (hf : keyword < f)
    (hf' : n + keyword < f') : Agrees (fun a b => b = n + a) (w.outermostHeader f keyword)
      (v.outermostHeader f' (n + keyword)) := by
  induction f generalizing f' keyword with
  | zero => exact absurd hf (Nat.not_lt_zero _)
  | succ f ih =>
    obtain ⟨f', rfl⟩ := Nat.exists_eq_add_one_of_ne_zero (Nat.ne_of_gt (Nat.zero_lt_of_lt hf'))
    refine (h.agrees_scan keyword false).bind (fun stop => ?_) ?_
    · cases stop with
      | header last outer => exact steady_outermostHeader w f outer
      | _ => exact .pure
    · intro a b ha _ hab
      have hwithin := scanBack_within false {} (w.back keyword) false
      rw [show ((scanBack false {} (w.back keyword)).run false) = (a, false) from ha] at hwithin
      have hlength : (w.back keyword).length ≤ keyword := by
        simp [View.back]
      cases hab with
      | header last outer =>
        have hlt : outer < keyword := Nat.lt_of_lt_of_le hwithin hlength
        exact ih (by omega) (by omega)
      | crossed outer =>
        have hlt : outer < keyword := Nat.lt_of_lt_of_le hwithin hlength
        exact ih (by omega) (by omega)
      | _ => exact .pure rfl

theorem agrees_afterSemicolon (hlast : n + last = v.tokens.size - 1) :
    Agrees (v.Same n) (w.afterSemicolon last) (v.afterSemicolon (n + last)) := by
  refine (h.agrees_scan last false).bind (fun stop => ?_) ?_
  · cases stop with
    | header last keyword => exact .bind (steady_outermostHeader _ _ _) fun _ => .pure
    | _ => exact .pure
  · intro a b _ hb hab
    have hheader (keyword : Nat) : Agrees (v.Same n)
        (do return w.indentOf (← w.outermostHeader (keyword + 1) keyword))
        (do return v.indentOf (← v.outermostHeader (n + keyword + 1) (n + keyword))) := by
      refine (h.agrees_outermostHeader (Nat.lt_succ_self _) (Nat.lt_succ_self _)).bind
        (fun _ => .pure) ?_
      rintro k _ - - rfl
      exact .pure (.inl (h.indentOf k))
    cases hab with
    | opener i =>
      rw [← h.style]
      exact .pure (.inl (congrArg (· + _) (h.indentOf i)))
    | header last keyword => exact hheader keyword
    | crossed keyword => exact hheader keyword
    | delimiter i => exact .pure (h.indentOf_next (.inl hlast) hb (.delimiter i))
    | comma i => exact .pure (h.indentOf_next (.inl hlast) hb (.comma i))

/-- `opensArray` is the same in the window and in the whole text, or the word before the sign is not
seen. -/
theorem opensArray (opener : Nat) :
    w.opensArray opener = v.opensArray (n + opener) ∨
      opener = 0 ∧ v.kind? n ≠ some .arrayBegin ∧
        (v.kindBefore? n 1 = some .arrayKw ∨ v.kindBefore? n 1 = some .listKw) := by
  by_cases hopener : 1 ≤ opener
  · left
    rw [View.opensArray, View.opensArray, h.kind?, h.kindBefore? hopener]
  · obtain rfl : opener = 0 := by omega
    have hnone : w.kindBefore? 0 1 = none := rfl
    rw [View.opensArray, View.opensArray, h.kind?, hnone, Nat.add_zero]
    by_cases harray : v.kind? n = some .arrayBegin
    · left
      simp [harray]
    · by_cases hword : v.kindBefore? n 1 = some .arrayKw ∨ v.kindBefore? n 1 = some .listKw
      · exact .inr ⟨rfl, harray, hword⟩
      · left
        rw [not_or] at hword
        cases hkind : v.kindBefore? n 1 with
        | none => rfl
        | some k =>
          rw [hkind] at hword
          simp_all

theorem agrees_afterComma (hlast : n + last = v.tokens.size - 1)
    (hkind : v.kind? (v.tokens.size - 1) = some .comma) :
    Agrees (v.Same n) (w.afterComma last) (v.afterComma (n + last)) := by
  refine (h.agrees_scan last false).bind (fun stop => ?_) ?_
  · cases stop with
    | opener i => exact .ite (steady_expressionIndent _ _) .pure
    | delimiter i => exact .ite (steady_expressionIndent _ _) .pure
    | _ => exact .pure
  · intro a b _ hb hab
    have hnext (hab : Stop.Moved n a b) : v.Same n
        (w.indentOf a.next + w.style.indent.continuationSize)
        (v.indentOf b.next + v.style.indent.continuationSize) := by
      rw [h.style]
      exact (h.indentOf_next (.inl hlast) hb hab).imp_left (congrArg (· + _))
    cases hab with
    | opener i =>
      dsimp only
      rw [h.isBrokenList]
      refine .ite (h.agrees_expressionIndent (.inl hlast)) (.pure ?_)
      rcases h.opensArray i with heq | ⟨rfl, harray, hword⟩
      · rw [heq, h.style, h.indentOf]
        exact .inl rfl
      · exact .inr (.list hkind (by rw [← hlast, hb]; rfl) harray hword)
    | delimiter i =>
      dsimp only
      rw [h.kind?]
      exact .ite (h.agrees_expressionIndent (.inl hlast)) (.pure (hnext (.delimiter i)))
    | comma i => exact .pure (hnext (.comma i))
    | header l k => exact .pure (hnext (.header l k))
    | crossed k => exact .pure (hnext (.crossed k))

/-- The word of a head is the same one, or it is not seen. -/
theorem headerWord? (p : Nat) :
    v.headerWord? (n + p) = (w.headerWord? p).map (n + ·) ∨
      w.headerWord? p = none ∧ ∃ word < n, v.headerWord? (n + p) = some word := by
  by_cases htwo : 2 ≤ p
  · left
    have hone : n + p - 1 = n + (p - 1) := by omega
    have hbefore : n + p - 2 = n + (p - 2) := by omega
    rw [View.headerWord?, View.headerWord?, h.kindBefore? htwo, h.kindBefore? (by omega : 1 ≤ p),
      hone, hbefore]
    split
    · rfl
    · split
      · rfl
      · rfl
  · rcases (by omega : p = 0 ∨ p = 1) with rfl | rfl
    · -- nothing is seen before the first token
      have hnone : w.headerWord? 0 = none := rfl
      cases hword : v.headerWord? (n + 0) with
      | none => exact .inl (by rw [hnone]; rfl)
      | some word =>
        refine .inr ⟨hnone, word, ?_, rfl⟩
        rcases headerWord?_eq_some hword with ⟨-, -, -, hpos⟩ | ⟨-, -, hpos⟩
        · omega
        · omega
    · -- one token is seen before the second one
      have hone : w.kindBefore? 1 1 = v.kindBefore? (n + 1) 1 := h.kindBefore? (Nat.le_refl 1)
      have hfunction : w.kindBefore? 1 2 = none := rfl
      have hseen : w.headerWord? 1 = if (v.kindBefore? (n + 1) 1).any opensHead then some 0
          else none := by
        rw [View.headerWord?, hone, hfunction]
        simp
      rw [hseen]
      by_cases hany : (v.kindBefore? (n + 1) 1).any opensHead = true
      · left
        rw [View.headerWord?, if_pos hany, if_pos hany]
        rfl
      · rw [if_neg hany]
        cases hword : v.headerWord? (n + 1) with
        | none => exact .inl rfl
        | some word =>
          refine .inr ⟨rfl, word, ?_, rfl⟩
          rcases headerWord?_eq_some hword with ⟨k, hk, hopens, -⟩ | ⟨-, -, hpos⟩
          · rw [hk] at hany
            exact absurd hopens hany
          · omega

theorem agrees_afterParen (hlast : n + last = v.tokens.size - 1) (hsize : 0 < v.tokens.size)
    (hkind : v.kind? (v.tokens.size - 1) = some .parenEnd) :
    Agrees (v.Same n) (w.afterParen last) (v.afterParen (n + last)) := by
  rw [afterParen_eq, afterParen_eq]
  obtain ⟨front, rfl, hback⟩ := h.back
  have hrest : Agrees (v.Same front.length)
      (do return (← w.expressionIndent (last + 1)) + w.style.indent.continuationSize)
      (do return (← v.expressionIndent (front.length + last + 1)) +
        v.style.indent.continuationSize) := by
    rw [h.style, Nat.add_assoc]
    exact h.agrees_expressionIndent_add _ (.inr (by omega))
  rw [hback]
  refine (agrees_openingParen? front 0 (w.back last)).bind (fun found => ?_) ?_
  · cases found with
    | none => exact .pure
    | some position =>
      dsimp only
      cases w.headerWord? position with
      | some word => exact .pure
      | none => exact .bind (steady_expressionIndent _ _) fun _ => .pure
  · rintro _ _ - hb ⟨i, -, rfl, rfl⟩
    dsimp only
    rcases h.headerWord? i with hsame | ⟨hnone, word, hlt, hword⟩
    · rw [hsame]
      cases w.headerWord? i with
      | none => exact hrest
      | some word =>
        refine .pure (.inl ?_)
        rw [h.indentOf, h.kind?, h.style]
    · rw [hnone, hword]
      -- the rule takes the pair for a part of an expression
      rw [← hback, hlast] at hb
      have hstrays : v.Strays front.length :=
        .header _ word hkind (congrArg Prod.fst hb) hword hlt (Nat.le_add_right _ _)
      intro a ha
      exact ⟨_, rfl, .inr hstrays⟩

theorem agrees_afterToken {caret : Nat} {kind : TokenKind} (hlast : n + last = v.tokens.size - 1)
    (hsize : 0 < v.tokens.size) (hkind : v.kind? (v.tokens.size - 1) = some kind) :
    Agrees (v.Same n) (w.afterToken caret last kind) (v.afterToken caret (n + last) kind) := by
  have hindent (size : Nat) : Agrees (v.Same n) (pure (w.indentOf last + size))
      (pure (v.indentOf (n + last) + size)) := .pure (.inl (by rw [h.indentOf]))
  unfold afterToken
  rw [h.style]
  dsimp only
  split
  -- the close tag, and the tokens with a rule of their own
  case h_4 => exact .pure (.inl (h.lineIndent caret))
  case h_10 => exact h.agrees_afterSemicolon hlast
  case h_14 => exact h.agrees_afterComma hlast hkind
  case h_15 => exact h.agrees_afterParen hlast hsize hkind
  case h_16 =>
    obtain ⟨front, rfl, hback⟩ := h.back
    rw [hback]
    refine (agrees_endsCaseLabel front 0 (w.back last)).bind
      (fun _ => .ite .pure (.bind (steady_expressionIndent _ _) fun _ => .pure)) ?_
    rintro label _ - - rfl
    exact .ite (hindent _) (h.agrees_expressionIndent_add _ (.inl hlast))
  case h_17 =>
    -- an operator is no part of the expression before it
    split
    · exact h.agrees_expressionIndent_add _ (.inl hlast)
    · exact h.agrees_expressionIndent_add (p := last + 1) _ (.inr (by omega))
  all_goals first | exact hindent 0 | exact hindent _

/-- `lastComment?` is the same one, if any token that is not blank is seen. -/
theorem lastComment?
    (hseen : (w.raw.toList.reverse.find? fun t => !(t.kind == .whitespace || t.kind == .eof)).isSome
      = true) : v.lastComment? = w.lastComment? := by
  obtain ⟨front, hraw⟩ := h.raw
  obtain ⟨t, ht⟩ := Option.isSome_iff_exists.mp hseen
  rw [View.lastComment?, View.lastComment?, hraw, reverse_append, find?_append, ht]
  rfl

theorem tokens_eq_empty
    (hnone : w.raw.toList.reverse.find? (fun t => !(t.kind == .whitespace || t.kind == .eof)) =
      none) : w.tokens = #[] := by
  rw [h.code, Array.filter_eq_empty_iff]
  intro t ht hcode
  have hblank := find?_eq_none.mp hnone t (by simpa using ht)
  simp only [Bool.not_eq_true, Bool.not_eq_false', Bool.or_eq_true, beq_iff_eq] at hblank
  rcases hblank with hkind | hkind
  · simp [isCode, hkind] at hcode
  · simp [isCode, hkind] at hcode

/-- `predict` by a window, if it is enough for the rules, is the indent by all tokens, unless the
rule for the last one strays from the window. -/
theorem agrees_predict (caret : Nat) : Agrees (v.Same n) (w.predict caret) (v.predict caret) := by
  unfold predict
  cases hfind : w.raw.toList.reverse.find? fun t => !(t.kind == .whitespace || t.kind == .eof) with
  | none =>
    -- nothing is seen at all
    have hcomment : w.lastComment? = none := by
      rw [View.lastComment?, hfind]
      rfl
    rw [hcomment, h.tokens_eq_empty hfind]
    exact .ranOff fun _ => .pure
  | some t =>
    have hstarts : w.startsLine = v.startsLine := by
      funext offset
      rw [View.startsLine, View.startsLine, h.source]
    rw [h.lastComment? (by rw [hfind]; rfl), hstarts]
    cases w.lastComment?.filter fun t => v.startsLine t.start with
    | some comment => exact .pure (.inl (h.lineIndent comment.start))
    | none =>
      dsimp only
      rw [Array.back?_eq_getElem?, Array.back?_eq_getElem?]
      cases hlast : w.tokens[w.tokens.size - 1]? with
      | none => exact .ranOff fun _ => .pure
      | some t =>
        have hlt := (Array.getElem?_eq_some_iff.mp hlast).1
        have hsize := h.size
        have hpos : n + (w.tokens.size - 1) = v.tokens.size - 1 := by omega
        have hback : v.tokens[v.tokens.size - 1]? = some t := by
          rw [← hpos, ← h.getElem?, hlast]
        rw [hback, ← hpos]
        refine h.agrees_afterToken hpos (by omega) ?_
        rw [View.kind?, hback]
        rfl

end

end Window

end View

/-- The tokens from one of them on make a `Window` on all of them. -/
theorem View.window_extract (source : String) (style : Style) (raw : Array Token) (k : Nat) :
    View.Window ((raw.toList.take k).filter isCode).length (.of source style (raw.extract k))
      (.of source style raw) := by
  have hrest : (raw.extract k).toList = raw.toList.drop k := by
    rw [Array.toList_extract, extract_eq_take_drop]
    exact take_of_length_le (by simp)
  have hcut : raw.toList = raw.toList.take k ++ (raw.extract k).toList := by
    rw [hrest, take_append_drop]
  refine ⟨rfl, rfl, ⟨_, hcut⟩, rfl, (raw.toList.take k).filter isCode, rfl, ?_⟩
  show (raw.filter isCode).toList = _ ++ ((raw.extract k).filter isCode).toList
  rw [Array.toList_filter, Array.toList_filter, ← filter_append, ← hcut]

/-- What it takes for `predictWindow?` to answer. -/
theorem predictWindow?_eq_some {source : String} {start caret indent : Nat} {style : Style}
    (h : predictWindow? source start caret style = some indent) : ∃ tokens,
      tokenizeIn (if endsInCode (Text.before source start).toList then .code else .markup)
        (Text.slice source start caret) = .ok tokens ∧
      ((View.of source style (tokens.map fun t => { t with start := t.start + start })).predict
        caret).run false = (indent, false) := by
  unfold predictWindow? at h
  dsimp only at h
  split at h
  · cases h
  · cases hread : tokenizeIn (if endsInCode (Text.before source start).toList then .code
        else .markup) (Text.slice source start caret) with
    | error e =>
      rw [hread] at h
      cases h
    | ok tokens =>
      rw [hread] at h
      refine ⟨tokens, rfl, ?_⟩
      cases hrun : ((View.of source style (tokens.map fun t =>
          { t with start := t.start + start })).predict caret).run false with
      | mk answer off =>
        have hanswer : (if off then none else some answer) = some indent := by
          rw [← h]
          show _ = (if ((View.of _ _ _).predict caret |>.run false).2 then none
            else some ((View.of _ _ _).predict caret |>.run false).1)
          rw [hrun]
        cases off with
        | true => cases hanswer
        | false =>
          cases hanswer
          rfl

/-- A window that starts at a token and is read in the mode there answers, if it answers at all, the
indent by all tokens before the caret, unless the rule for the last token strays from the window. -/
theorem predictWindow?_same {source : String} {caret : Nat} (style : Style) {raw : Array Token}
    (hcaret : Text.isBoundary source caret = true)
    (hread : tokenize (Text.before source caret) = .ok raw) {k : Nat} {t : Token}
    (ht : raw[k]? = some t)
    (hmode : endsInCode (Text.before source t.start).toList =
      insideAfter false ((raw.toList.take k).map Token.kind)) {indent : Nat}
    (hindent : predictWindow? source t.start caret style = some indent) :
    indent = (((View.of source style raw).predict caret).run false).1 ∨
      (View.of source style raw).Strays ((raw.toList.take k).filter isCode).length := by
  obtain ⟨tokens, htokens, hpredict⟩ := predictWindow?_eq_some hindent
  obtain ⟨rest, hslice, hresume⟩ := tokenizeIn_resume hread ht
  -- the window is what is read on from the token
  rw [Text.slice_of_before hcaret hslice, hmode] at htokens
  have hback : tokens = (raw.extract k).map (Token.back t.start) :=
    Except.ok.inj (htokens.symm.trans hresume)
  rw [hback, extract_back_forth hread ht] at hpredict
  obtain ⟨full, hfull, hsame⟩ :=
    (View.window_extract source style raw k).agrees_predict caret indent hpredict
  rw [hfull]
  exact hsame

/-- Behind a comma the window starts at the name in front of the parenthesis, which is enough. -/
theorem predictWindow?_same_call : ∃ raw t,
    tokenize (Text.before "<?php\n$a;\nfoo(1," 16) = .ok raw ∧ raw[5]? = some t ∧
      predictWindow? "<?php\n$a;\nfoo(1," t.start 16 {} = some 8 ∧
      (8 = (((View.of "<?php\n$a;\nfoo(1," {} raw).predict 16).run false).1 ∨
        (View.of "<?php\n$a;\nfoo(1," {} raw).Strays ((raw.toList.take 5).filter isCode).length) := by
  have hraw : (tokenize (Text.before "<?php\n$a;\nfoo(1," 16)).toOption.any (fun raw =>
      raw[5]?.any fun t =>
        predictWindow? "<?php\n$a;\nfoo(1," t.start 16 {} == some 8 &&
          endsInCode (Text.before "<?php\n$a;\nfoo(1," t.start).toList ==
            insideAfter false ((raw.toList.take 5).map Token.kind)) = true := by
    decide +kernel
  obtain ⟨raw, h, hraw⟩ := exists_ok_of_any hraw
  have hsome : raw[5]?.any _ = true := hraw
  obtain ⟨t, ht, hboth⟩ := (Option.any_eq_true _ _).mp hsome
  obtain ⟨hwindow, hmode⟩ := Bool.and_eq_true_iff.mp hboth
  have hwindow := eq_of_beq hwindow
  exact ⟨raw, t, h, ht, hwindow,
    predictWindow?_same {} (by decide +kernel) h ht (eq_of_beq hmode) hwindow⟩

/-- The window starts with the parenthesis of an array, whose word stands on the line before: it
answers the indent of a call, and by all tokens it is that of an array. -/
theorem predictWindow?_strays : ∃ raw t,
    tokenize (Text.before "<?php\n$x = array\n(1\n\n\n\n\n\n\n\n," 28) = .ok raw ∧
      raw[8]? = some t ∧ t.start = 17 ∧
      endsInCode (Text.before "<?php\n$x = array\n(1\n\n\n\n\n\n\n\n," 17).toList =
        insideAfter false ((raw.toList.take 8).map Token.kind) ∧
      predictWindow? "<?php\n$x = array\n(1\n\n\n\n\n\n\n\n," 17 28 {} = some 8 ∧
      predictIndent "<?php\n$x = array\n(1\n\n\n\n\n\n\n\n," 28 {} = 8 ∧
      (((View.of "<?php\n$x = array\n(1\n\n\n\n\n\n\n\n," {} raw).predict 28).run false).1 = 4 := by
  have hraw : (tokenize (Text.before "<?php\n$x = array\n(1\n\n\n\n\n\n\n\n," 28)).toOption.any
      (fun raw => raw[8]?.any fun t => t.start == 17 &&
        (endsInCode (Text.before "<?php\n$x = array\n(1\n\n\n\n\n\n\n\n," 17).toList ==
          insideAfter false ((raw.toList.take 8).map Token.kind) &&
        (((View.of "<?php\n$x = array\n(1\n\n\n\n\n\n\n\n," {} raw).predict 28).run false).1 == 4)) =
      true := by
    decide +kernel
  obtain ⟨raw, h, hraw⟩ := exists_ok_of_any hraw
  have hsome : raw[8]?.any _ = true := hraw
  obtain ⟨t, ht, hall⟩ := (Option.any_eq_true _ _).mp hsome
  obtain ⟨hstart, hrest⟩ := Bool.and_eq_true_iff.mp hall
  obtain ⟨hmode, hfull⟩ := Bool.and_eq_true_iff.mp hrest
  exact ⟨raw, t, h, ht, eq_of_beq hstart, eq_of_beq hmode, by decide +kernel,
    by decide +kernel, eq_of_beq hfull⟩

end CodeLayout.Indent
