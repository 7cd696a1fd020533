import CodeLayout.Proofs.Token.Sections

/-!
# The edges of lexemes

Blanks stand in lexemes of their own.  So every other lexeme of a section, and every tag, starts
with a character that is no blank (`Lexes.bare`); a comment that is closed by a sign ends with one
too (`Lexes.bare_reverse`).  A line comment may end with blanks, but what follows it ends the line or
the section (`Lexes.head_behind_lineComment`).  Markup may be anything, but what stands next to it are
tags (`Lexes.html_edges`).
-/

namespace CodeLayout

open List

/-- The characters do not start with a blank. -/
def Text.Bare (cs : List Char) : Prop := ∀ c, cs.head? = some c → Lexeme.isBlank c = false

namespace Text.Bare

theorem nil : Bare [] := nofun

variable {cs ds : List Char}

theorem cons {c : Char} (h : Lexeme.isBlank c = false) : Bare (c :: cs) := by
  intro d hd
  cases hd
  exact h

theorem append (hcs : Bare cs) (hne : cs ≠ []) : Bare (cs ++ ds) := by
  obtain ⟨c, cs, rfl⟩ := exists_cons_of_ne_nil hne
  exact .cons (hcs c rfl)

theorem of_append (h : Bare (cs ++ ds)) (hne : cs ≠ []) : Bare cs := by
  obtain ⟨c, cs, rfl⟩ := exists_cons_of_ne_nil hne
  exact .cons (h c rfl)

/-- Blanks can be told from characters that are `Bare`. -/
theorem takeWhile_append {bs : List Char} (hbs : ∀ c ∈ bs, Lexeme.isBlank c = true)
    (hcs : Bare cs) : (bs ++ cs).takeWhile Lexeme.isBlank = bs := by
  rw [takeWhile_append_of_pos hbs]
  cases cs with
  | nil => simp
  | cons c cs => rw [takeWhile_cons_of_neg (by simp [hcs c rfl]), append_nil]

end Text.Bare

theorem StartsSection.bare {cs : List Char} (h : StartsSection cs) : Text.Bare cs := by
  rcases h with ⟨rest, rfl⟩ | ⟨word, rest, rfl, -⟩ <;> exact .cons (by decide)

namespace Lexeme

variable {cs : List Char} {kind : TokenKind} {n : Nat} {c : Char}

/-- `codeRule` reads only blanks where there is a blank. -/
theorem bare_of_codeRule (h : codeRule cs = some (kind, n)) (hkind : kind ≠ .whitespace) :
    Text.Bare cs := by
  simp only [codeRule, Option.orElse_eq_orElse, Option.orElse_eq_or, Option.or_eq_some_iff] at h
  rcases h with h | ⟨-, h | ⟨hnone, -⟩⟩
  · obtain ⟨-, -, rest, rfl⟩ := closeTagRule_spec h
    exact .cons (by decide)
  · exact absurd (blankRule_spec h).1 hkind
  · -- the rule for blanks has been tried before all others, and has failed
    intro c hc
    obtain ⟨cs, rfl⟩ := head?_eq_some_iff.mp hc
    by_contra hblank
    rw [blankRule, takeWhile_cons_of_pos (by simpa using hblank)] at hnone
    simp at hnone

theorem bare_of_markupRule (h : markupRule cs = some (kind, n)) (hkind : kind ≠ .inlineHtml) :
    Text.Bare cs := by
  simp only [markupRule, Option.orElse_eq_orElse, Option.orElse_eq_or, Option.or_eq_some_iff] at h
  rcases h with h | ⟨-, h⟩
  · exact (openTagRule_isSome_iff.mp (by rw [h]; rfl)).bare
  · split at h
    · cases h
    · cases h
      exact absurd rfl hkind

/-- `lineTail` stops where the line ends or a question mark closes the section. -/
theorem head_drop_lineTail (cs : List Char) (h : (cs.drop (lineTail cs)).head? = some c) :
    endsLine c = true ∨ c = '?' := by
  fun_induction lineTail cs with
  | case1 => cases h
  | case2 =>
    cases h
    exact .inr rfl
  | case3 d cs _ hends =>
    cases h
    exact .inl hends
  | case4 d cs _ _ ih => exact ih (by rwa [drop_succ_cons] at h)

/-- `commentRule` reads what starts with one of two signs. -/
theorem head_of_commentRule (h : commentRule cs = some (kind, n)) (hc : cs.head? = some c) :
    c = '/' ∨ c = '#' := by
  rcases commentRule_spec h with ⟨_, rfl, -⟩ | ⟨_, rfl, -⟩ | ⟨_, _, rfl, -⟩ <;> cases hc
  · exact .inl rfl
  · exact .inr rfl
  · exact .inl rfl

/-- What `throughClose` reads ends with the closing sign. -/
theorem take_throughClose (h : throughClose cs = some n) : ∃ as, cs.take n = as ++ ['*', '/'] := by
  fun_induction throughClose cs generalizing n with
  | case1 => cases h
  | case2 cs =>
    cases h
    exact ⟨[], rfl⟩
  | case3 c cs _ ih =>
    obtain ⟨m, hm, rfl⟩ := Option.map_eq_some_iff.mp h
    obtain ⟨as, has⟩ := ih hm
    exact ⟨c :: as, by rw [take_succ_cons, has, cons_append]⟩

end Lexeme

namespace Lexer

variable {mode : Mode} {xs as bs : List Lexeme} {x : Lexeme} {cs : List Char}

/-- A lexeme other than blanks and markup is `Bare`. -/
theorem Lexes.bare (h : Lexes mode (as ++ x :: bs) cs) (hblank : x.kind ≠ .whitespace)
    (hhtml : x.kind ≠ .inlineHtml) : Text.Bare x.text := by
  obtain ⟨rest, -, hne, hrule, -⟩ := h.rule_at
  cases hmode : mode.after as with
  | markup =>
    rw [hmode] at hrule
    exact (Lexeme.bare_of_markupRule hrule hhtml).of_append hne
  | code =>
    rw [hmode] at hrule
    exact (Lexeme.bare_of_codeRule hrule hblank).of_append hne

/-- The reverse of a comment that is closed by a sign is `Bare`. -/
theorem Lexes.bare_reverse (h : Lexes mode xs cs) (hx : x ∈ xs)
    (hkind : x.kind = .blockComment ∨ x.kind = .docComment) : Text.Bare x.text.reverse := by
  have hfamily : Lexeme.family x.kind = .comment := by rcases hkind with hk | hk <;> rw [hk] <;> rfl
  obtain ⟨rest, hrule⟩ := h.family_rule hx (by rw [hfamily]; decide)
  rw [hfamily] at hrule
  rcases Lexeme.commentRule_spec hrule with ⟨_, -, hline, -⟩ | ⟨_, -, -, hline, -⟩ |
    ⟨inner, n, hcut, hclose, -, hlen⟩
  · rcases hkind with hk | hk <;> cases hk.symm.trans hline
  · rcases hkind with hk | hk <;> cases hk.symm.trans hline
  · obtain ⟨ds, hds⟩ := Lexeme.take_throughClose hclose
    have htext : x.text = '/' :: '*' :: (ds ++ ['*', '/']) := by
      have htake := congrArg (List.take x.text.length) hcut
      rwa [take_left, hlen, take_succ_cons, take_succ_cons, hds] at htake
    rw [htext, show '/' :: '*' :: (ds ++ ['*', '/']) = ('/' :: '*' :: ds ++ ['*']) ++ ['/'] by simp,
      reverse_append]
    exact .cons (by decide)

variable {c : Char} {y : Lexeme}

/-- A comment starts with one of two signs. -/
theorem Lexes.head_comment (h : Lexes mode xs cs) (hx : x ∈ xs) (hkind : x.kind.isComment = true)
    (hc : x.text.head? = some c) : c = '/' ∨ c = '#' := by
  have hfamily := Lexeme.family_comment hkind
  obtain ⟨rest, hrule⟩ := h.family_rule hx (by rw [hfamily]; decide)
  rw [hfamily] at hrule
  exact Lexeme.head_of_commentRule hrule (by rw [head?_append, hc]; rfl)

/-- What follows a line comment ends its line, or closes the section. -/
theorem Lexes.head_behind_lineComment (h : Lexes mode (as ++ x :: bs) cs)
    (hkind : x.kind = .lineComment) (hc : (bs.flatMap Lexeme.text).head? = some c) :
    Lexeme.endsLine c = true ∨ c = '?' := by
  obtain ⟨rest, -, -, hrule, hrest⟩ := h.rule_at
  rw [hrest.flatMap_text] at hc
  cases hmode : mode.after as with
  | markup =>
    rw [hmode] at hrule
    rcases (Lexeme.markupRule_spec hrule).1 with hk | hk | hk <;> cases hkind.symm.trans hk
  | code =>
    rw [hmode] at hrule
    have hfamily := Lexeme.codeRule_family hrule
    rw [hkind] at hfamily
    have hdrop : (x.text ++ rest).drop x.text.length = rest := drop_left
    rcases Lexeme.commentRule_spec hfamily with ⟨tail, hcut, -, hlen⟩ | ⟨tail, hcut, -, -, hlen⟩ |
      ⟨tail, n, -, -, hblock, -⟩
    · rw [hcut, hlen, drop_succ_cons, drop_succ_cons] at hdrop
      exact Lexeme.head_drop_lineTail tail (by rwa [hdrop])
    · rw [hcut, hlen, drop_succ_cons] at hdrop
      exact Lexeme.head_drop_lineTail tail (by rwa [hdrop])
    · exact absurd hblock.symm (Lexeme.blockKind_ne_lineComment tail)

/-- Only a `closeTag` leads from code to markup. -/
theorem Lexes.kind_of_next (h : Lexes mode (as ++ y :: bs) cs)
    (hnext : (mode.after as).next y.kind = .markup) (hhtml : y.kind ≠ .inlineHtml) :
    y.kind = .closeTag := by
  obtain ⟨rest, -, -, hrule, -⟩ := h.rule_at
  cases hmode : mode.after as with
  | markup =>
    rw [hmode] at hrule hnext
    rcases (Lexeme.markupRule_spec hrule).1 with hk | hk | hk
    · rw [hk] at hnext
      cases hnext
    · rw [hk] at hnext
      cases hnext
    · exact absurd hk hhtml
  | code =>
    rw [hmode] at hnext
    unfold Mode.next at hnext
    split at hnext
    · cases hnext
    · cases hnext
    · assumption
    · cases hnext

theorem Lexes.text_of_closeTag (h : Lexes mode (as ++ y :: bs) cs) (hkind : y.kind = .closeTag) :
    y.text = ['?', '>'] := by
  obtain ⟨rest, -, -, hrule, -⟩ := h.rule_at
  rw [hkind] at hrule
  cases hmode : mode.after as with
  | markup =>
    rw [hmode] at hrule
    rcases (Lexeme.markupRule_spec hrule).1 with hk | hk | hk <;> cases hk
  | code =>
    rw [hmode] at hrule
    obtain ⟨-, hlen, inner, hcut⟩ := Lexeme.closeTagRule_spec (Lexeme.codeRule_family hrule)
    have htake := congrArg (List.take y.text.length) hcut
    rwa [take_left, hlen] at htake

/-- Markup stands at the start, or behind a `closeTag`. -/
theorem Lexes.kind_before_html (h : Lexes mode (as ++ y :: x :: bs) cs)
    (hkind : x.kind = .inlineHtml) : y.kind = .closeTag := by
  have hlexes : Lexes mode ((as ++ [y]) ++ x :: bs) cs := by rwa [append_assoc]
  have hmode := hlexes.mode_of_html hkind
  rw [Mode.after, foldl_append] at hmode
  -- two stretches of markup would have been one
  exact h.kind_of_next hmode fun hy => h.html_apart hy hkind

/-- What stands next to `inlineHtml` is `Bare`. -/
theorem Lexes.html_edges (h : Lexes .markup (as ++ x :: bs) cs) (hkind : x.kind = .inlineHtml) :
    Text.Bare (as.flatMap Lexeme.text).reverse ∧ Text.Bare (bs.flatMap Lexeme.text) := by
  constructor
  · rcases eq_nil_or_concat as with rfl | ⟨as, y, rfl⟩
    · exact .nil
    · rw [concat_eq_append, append_assoc] at h
      rw [concat_eq_append, flatMap_append, flatMap_singleton,
        h.text_of_closeTag (h.kind_before_html hkind), reverse_append]
      exact .cons (by decide)
  · obtain ⟨rest, -, -, hrule, hrest⟩ := h.rule_at
    rw [h.mode_of_html hkind, hkind] at hrule
    rw [hrest.flatMap_text]
    rcases (Lexeme.markupRule_html hrule).2 with rfl | htag
    · exact .nil
    · exact htag.bare

end Lexer

end CodeLayout
