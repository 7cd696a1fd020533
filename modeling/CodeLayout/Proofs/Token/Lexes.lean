import CodeLayout.Proofs.Text.Slices
import CodeLayout.Token.Lexer
import Mathlib.Data.List.TakeWhile

/-!
# Reading as a relation

`Lexes mode xs cs` says that the characters `cs`, read from the given mode on, are the texts of the
lexemes `xs` one after the other, each of them what the rules of its mode read at its place.  It
characterises the lexer (`tokenizeIn_eq_ok_iff`): a text has tokens exactly if it can be read to its
end, and the tokens are then its lexemes, put at their offsets.

The lexer cuts by `take` and `drop`, the relation by `++`.  The two agree because no rule counts more
characters than there are (`Mode.rule_le`).
-/

namespace CodeLayout

open List

/-! ## No rule reaches past the text -/

variable {α : Type}

theorem Text.length_takeWhile_le (p : α → Bool) (cs : List α) :
    (cs.takeWhile p).length ≤ cs.length :=
  (List.takeWhile_prefix p).length_le

theorem Text.drop_length_takeWhile (p : α → Bool) (cs : List α) :
    cs.drop (cs.takeWhile p).length = cs.dropWhile p := by
  calc cs.drop (cs.takeWhile p).length
      = (cs.takeWhile p ++ cs.dropWhile p).drop (cs.takeWhile p).length := by
        rw [takeWhile_append_dropWhile]
    _ = cs.dropWhile p := drop_left

theorem Text.identLength_le (cs : List Char) : Text.identLength cs ≤ cs.length := by
  cases cs with
  | nil => simp [Text.identLength]
  | cons c cs =>
    have := Text.length_takeWhile_le Text.isIdentContinue cs
    rw [Text.identLength, length_cons]
    split <;> omega

namespace Lexeme

theorem lineTail_le (cs : List Char) : lineTail cs ≤ cs.length := by
  fun_induction lineTail cs with
  | case1 => simp
  | case2 => simp
  | case3 c cs _ _ => simp
  | case4 c cs _ _ ih => rw [length_cons]; omega

variable {cs : List Char} {n : Nat} {kind : TokenKind}

theorem throughClose_le (h : throughClose cs = some n) : n ≤ cs.length := by
  fun_induction throughClose cs generalizing n with
  | case1 => simp at h
  | case2 cs =>
    cases h
    simp
  | case3 c cs _ ih =>
    obtain ⟨m, hm, rfl⟩ := Option.map_eq_some_iff.mp h
    have := ih hm
    rw [length_cons]
    omega

theorem throughQuote_le {quote : Char} (h : throughQuote quote cs = some n) : n ≤ cs.length := by
  fun_induction throughQuote quote cs generalizing n with
  | case1 => simp at h
  | case2 => simp at h
  | case3 c _ d rest ih =>
    obtain ⟨m, hm, rfl⟩ := Option.map_eq_some_iff.mp h
    have := ih hm
    simp only [length_cons]
    omega
  | case4 c cs _ _ =>
    cases h
    simp
  | case5 c cs _ _ ih =>
    obtain ⟨m, hm, rfl⟩ := Option.map_eq_some_iff.mp h
    have := ih hm
    rw [length_cons]
    omega

theorem digits_le (cs : List Char) : digits cs ≤ cs.length :=
  Text.length_takeWhile_le Char.isDigit cs

theorem digitGroups_le (cs : List Char) : digitGroups cs ≤ cs.length := by
  fun_induction digitGroups cs with
  | case1 => simp
  | case2 => simp
  | case3 c cs _ _ ih =>
    have := digits_le cs
    rw [length_drop] at ih
    rw [length_cons]
    omega
  | case4 => simp

theorem decimal_le (cs : List Char) : decimal cs ≤ cs.length := by
  have hdigits := digits_le cs
  have hgroups := digitGroups_le (cs.drop (digits cs))
  rw [length_drop] at hgroups
  rw [decimal]
  split
  · omega
  · omega

theorem exponent_le (cs : List Char) : exponent cs ≤ cs.length := by
  fun_cases exponent cs with
  | case1 => simp
  | case2 c cs _ sign hne =>
    have := digits_le (cs.drop sign)
    rw [length_drop] at this
    have hpos : digits (cs.drop sign) ≠ 0 := hne
    rw [length_cons]
    omega
  | case3 => simp
  | case4 => simp

theorem based_le (cs : List Char) : based cs ≤ cs.length := by
  fun_cases based cs with
  | case1 => simp
  | case2 c cs _ n =>
    have := Text.length_takeWhile_le isHexDigit cs
    simp only [length_cons]
    omega
  | case3 => simp
  | case4 => simp

theorem fraction_le (cs : List Char) : fraction cs ≤ cs.length := by
  have hdec := decimal_le cs
  have hlen : (cs.drop (decimal cs)).length = cs.length - decimal cs := length_drop
  fun_cases fraction cs with
  | case1 => simp
  | case2 rest hdrop hzero _ =>
    have hrest := decimal_le rest
    have hexp := exponent_le (rest.drop (decimal rest))
    rw [length_drop] at hexp
    rw [hdrop, length_cons] at hlen
    omega
  | case3 => simp
  | case4 rest hdrop m _ =>
    have hrest : m ≤ rest.length := decimal_le rest
    have hexp := exponent_le (rest.drop m)
    rw [length_drop] at hexp
    rw [hdrop, length_cons] at hlen
    omega
  | case5 => simp
  | case6 _ _ _ _ =>
    have hexp := exponent_le (cs.drop (decimal cs))
    omega

theorem nameParts_le (cs : List Char) : nameParts cs ≤ cs.length := by
  fun_induction nameParts cs with
  | case1 => simp
  | case2 => simp
  | case3 c cs _ _ ih =>
    have := Text.identLength_le cs
    rw [length_drop] at ih
    rw [length_cons]
    omega
  | case4 => simp

theorem markupLength_le (cs : List Char) : markupLength cs ≤ cs.length := by
  fun_induction markupLength cs with
  | case1 => simp
  | case2 => simp
  | case3 c cs _ ih => rw [length_cons]; omega

/-! ## What each rule reads -/

theorem closeTagRule_spec (h : closeTagRule cs = some (kind, n)) :
    kind = .closeTag ∧ n = 2 ∧ ∃ rest, cs = '?' :: '>' :: rest := by
  fun_cases closeTagRule cs with
  | case1 rest =>
    cases h
    exact ⟨rfl, rfl, rest, rfl⟩
  | case2 => simp [closeTagRule] at h

theorem blankRule_spec (h : blankRule cs = some (kind, n)) :
    kind = .whitespace ∧ n = (cs.takeWhile isBlank).length ∧ 0 < n := by
  unfold blankRule at h
  split at h
  · simp at h
  · next hne =>
    cases h
    exact ⟨rfl, rfl, Nat.pos_of_ne_zero hne⟩

/-- The kind of a comment that is closed by a sign, from what follows its opening sign. -/
def blockKind : List Char → TokenKind
  | '*' :: c :: _ => if isBlank c then .docComment else .blockComment
  | _ => .blockComment

theorem blockKind_isComment (cs : List Char) : (blockKind cs).isComment = true := by
  unfold blockKind
  split
  · split <;> rfl
  · rfl

theorem blockKind_ne_lineComment (cs : List Char) : blockKind cs ≠ .lineComment := by
  unfold blockKind
  split
  · split <;> simp
  · simp

/-- `commentRule` reads a comment up to the sign that closes it, whatever its kind: the star of a
doc comment cannot be part of the closing sign. -/
theorem commentRule_block (cs : List Char) :
    commentRule ('/' :: '*' :: cs) = (throughClose cs).map fun n => (blockKind cs, n + 2) := by
  by_cases hstar : ∃ c rest, cs = '*' :: c :: rest
  · obtain ⟨c, rest, rfl⟩ := hstar
    simp only [commentRule, blockKind]
    split
    · next hblank =>
      have hopen : throughClose ('*' :: c :: rest) = (throughClose (c :: rest)).map (· + 1) := by
        refine throughClose.eq_3 _ _ ?_
        rintro r - heq
        rw [(List.cons.inj heq).1] at hblank
        exact absurd hblank (by decide)
      simp [hopen, Function.comp_def]
    · rfl
  · have hne : ∀ c rest, cs = '*' :: c :: rest → False := fun c rest h => hstar ⟨c, rest, h⟩
    rw [commentRule, blockKind]
    · exact hne
    · exact hne

theorem commentRule_spec (h : commentRule cs = some (kind, n)) :
    (∃ rest, cs = '/' :: '/' :: rest ∧ kind = .lineComment ∧ n = lineTail rest + 2) ∨
    (∃ rest, cs = '#' :: rest ∧ rest.head? ≠ some '[' ∧ kind = .lineComment ∧
      n = lineTail rest + 1) ∨
    (∃ rest m, cs = '/' :: '*' :: rest ∧ throughClose rest = some m ∧ kind = blockKind rest ∧
      n = m + 2) := by
  by_cases hblock : ∃ rest, cs = '/' :: '*' :: rest
  · obtain ⟨rest, rfl⟩ := hblock
    rw [commentRule_block] at h
    obtain ⟨m, hm, heq⟩ := Option.map_eq_some_iff.mp h
    cases heq
    exact .inr (.inr ⟨rest, m, rfl, hm, rfl, rfl⟩)
  · unfold commentRule at h
    split at h
    · next rest =>
      cases h
      exact .inl ⟨rest, rfl, rfl, rfl⟩
    · simp at h
    · next rest hne =>
      cases h
      refine .inr (.inl ⟨rest, rfl, ?_, rfl, rfl⟩)
      intro hhead
      obtain ⟨tail, htail⟩ := head?_eq_some_iff.mp hhead
      exact hne tail htail
    · next rest => exact absurd ⟨rest, rfl⟩ hblock
    · simp at h

theorem commentRule_le (h : commentRule cs = some (kind, n)) :
    kind.isComment = true ∧ n ≤ cs.length := by
  rcases commentRule_spec h with ⟨rest, rfl, rfl, rfl⟩ | ⟨rest, rfl, -, rfl, rfl⟩ |
    ⟨rest, m, rfl, hm, rfl, rfl⟩
  · have := lineTail_le rest
    exact ⟨rfl, by simp only [length_cons]; omega⟩
  · have := lineTail_le rest
    exact ⟨rfl, by simp only [length_cons]; omega⟩
  · have := throughClose_le hm
    exact ⟨blockKind_isComment rest, by simp only [length_cons]; omega⟩

/-- `castRule` reads a type in parentheses, with spaces and tabs around it. -/
theorem castRule_spec (h : castRule cs = some (kind, n)) :
    kind = .cast ∧ ∃ lead word trail rest, cs = '(' :: (lead ++ (word ++ (trail ++ ')' :: rest))) ∧
      (∀ c ∈ lead, Text.isTabOrSpace c = true) ∧ (∀ c ∈ trail, Text.isTabOrSpace c = true) ∧
      lowerWord word ∈ castTypes ∧ n = lead.length + word.length + trail.length + 2 := by
  unfold castRule at h
  split at h
  · next cs =>
    simp only [Text.drop_length_takeWhile] at h
    have hcs := takeWhile_append_dropWhile (p := Text.isTabOrSpace) (l := cs)
    have hlead : ∀ c ∈ cs.takeWhile Text.isTabOrSpace, Text.isTabOrSpace c = true :=
      fun c => mem_takeWhile_imp
    generalize cs.takeWhile Text.isTabOrSpace = lead at h hcs hlead
    generalize cs.dropWhile Text.isTabOrSpace = inner at h hcs
    split at h
    · next hword =>
      split at h
      · next rest hclose =>
        cases h
        have hlen := length_take_of_le (Text.identLength_le inner)
        refine ⟨rfl, lead, inner.take (Text.identLength inner),
          (inner.drop (Text.identLength inner)).takeWhile Text.isTabOrSpace, rest, ?_, hlead,
          fun c => mem_takeWhile_imp, by simpa using hword, by rw [hlen]⟩
        rw [← hclose, takeWhile_append_dropWhile, take_append_drop, hcs]
      · simp at h
    · simp at h
  · simp at h

theorem numberRule_spec (h : numberRule cs = some (kind, n)) :
    (kind = .int ∨ kind = .float) ∧ n ≤ cs.length := by
  have h1 := based_le cs
  have h2 := fraction_le cs
  have h3 := decimal_le cs
  unfold numberRule at h
  split at h
  · simp at h
  · cases h
    exact ⟨.inl rfl, h3⟩
  · cases h
    exact ⟨.inr rfl, h2⟩
  · cases h
    exact ⟨.inl rfl, h1⟩

theorem stringRule_spec (h : stringRule cs = some (kind, n)) : kind = .str ∧ n ≤ cs.length := by
  unfold stringRule at h
  split at h
  · simp at h
  · next c cs =>
    split at h
    · obtain ⟨m, hm, heq⟩ := Option.map_eq_some_iff.mp h
      cases heq
      have := throughQuote_le hm
      exact ⟨rfl, by rw [length_cons]; omega⟩
    · simp at h

theorem signRule_spec (h : signRule cs = some (kind, n)) :
    ∃ sign, (sign, kind) ∈ signs ∧ starts sign cs = true ∧ n = sign.length := by
  unfold signRule at h
  split at h
  · simp at h
  · obtain ⟨⟨sign, kind'⟩, hfind, heq⟩ := Option.map_eq_some_iff.mp h
    cases heq
    have hstarts := find?_some hfind
    exact ⟨sign, mem_of_find?_eq_some hfind, hstarts, rfl⟩

theorem mem_reserved_of_ofWord? {word : String} (h : TokenKind.ofWord? word = some kind) :
    ∃ w, (w, kind) ∈ TokenKind.reserved := by
  obtain ⟨l₁, l₂, hl, -⟩ := lookup_eq_some_iff.mp h
  exact ⟨word.map Char.toLower, by rw [hl]; simp⟩

theorem nameRule_spec (h : nameRule cs = some (kind, n)) :
    (kind = .varName ∨ kind = .name ∨ ∃ w, (w, kind) ∈ TokenKind.reserved) ∧ n ≤ cs.length := by
  unfold nameRule at h
  split at h
  · simp at h
  · next c cs =>
    have hident := Text.identLength_le cs
    have hparts := nameParts_le (cs.drop (Text.identLength cs))
    have hwhole := Text.identLength_le (c :: cs)
    have hwparts := nameParts_le ((c :: cs).drop (Text.identLength (c :: cs)))
    rw [length_drop] at hparts hwparts
    rw [length_cons] at hwhole hwparts ⊢
    split at h
    · split at h
      · simp at h
      · cases h
        exact ⟨.inl rfl, by omega⟩
    · split at h
      · split at h
        · simp at h
        · cases h
          exact ⟨.inr (.inl rfl), by omega⟩
      · split at h
        · simp at h
        · split at h
          · cases h
            refine ⟨?_, hwhole⟩
            cases hword : TokenKind.ofWord? (String.ofList
                ((c :: cs).take (Text.identLength (c :: cs)))) with
            | none => exact .inr (.inl rfl)
            | some k => exact .inr (.inr (mem_reserved_of_ofWord? hword))
          · cases h
            exact ⟨.inr (.inl rfl), by omega⟩

/-! ## The rule behind a kind -/

/-- The kinds inside a section, by the rule that reads them; the others have no such rule. -/
inductive Family where
  | closeTag | blank | comment | cast | number | string | name | sign | other
deriving DecidableEq

/-- The family of a kind. -/
def family : TokenKind → Family
  | .closeTag => .closeTag
  | .whitespace => .blank
  | .lineComment | .blockComment | .docComment => .comment
  | .cast => .cast
  | .int | .float => .number
  | .str => .string
  | .varName | .name => .name
  | .inlineHtml | .openTag | .openTagWithEcho | .eof => .other
  | kind => if kind.isKeyword then .name else .sign

/-- The rule of a family. -/
def Family.rule : Family → List Char → Option Match
  | closeTag => closeTagRule
  | blank => blankRule
  | comment => commentRule
  | cast => castRule
  | number => numberRule
  | string => stringRule
  | name => nameRule
  | sign => signRule
  | other => fun _ => none

theorem family_reserved : ∀ p ∈ TokenKind.reserved, family p.2 = .name := by decide

theorem family_signs : ∀ p ∈ signs, family p.2 = .sign := by decide

theorem family_comment (h : kind.isComment = true) : family kind = .comment := by
  cases kind <;> first | rfl | exact absurd h (by decide)

/-- `codeRule` reads a kind by the rule of its `family`. -/
theorem codeRule_family (h : codeRule cs = some (kind, n)) :
    (family kind).rule cs = some (kind, n) := by
  simp only [codeRule, Option.orElse_eq_orElse, Option.orElse_eq_or, Option.or_eq_some_iff] at h
  rcases h with h | ⟨-, h | ⟨-, h | ⟨-, h | ⟨-, h | ⟨-, h | ⟨-, h | ⟨-, h⟩⟩⟩⟩⟩⟩⟩
  · obtain ⟨rfl, -⟩ := closeTagRule_spec h
    exact h
  · obtain ⟨rfl, -⟩ := blankRule_spec h
    exact h
  · rw [family_comment (commentRule_le h).1]
    exact h
  · obtain ⟨rfl, -⟩ := castRule_spec h
    exact h
  · rcases (numberRule_spec h).1 with rfl | rfl
    · exact h
    · exact h
  · obtain ⟨rfl, -⟩ := stringRule_spec h
    exact h
  · rcases (nameRule_spec h).1 with rfl | rfl | ⟨w, hw⟩
    · exact h
    · exact h
    · rw [family_reserved _ hw]
      exact h
  · obtain ⟨sign, hmem, -⟩ := signRule_spec h
    rw [family_signs _ hmem]
    exact h

theorem Family.rule_le {family : Family} (h : family.rule cs = some (kind, n)) : n ≤ cs.length := by
  cases family with
  | closeTag =>
    obtain ⟨-, rfl, rest, rfl⟩ := closeTagRule_spec h
    simp
  | blank =>
    obtain ⟨-, rfl, -⟩ := blankRule_spec h
    exact Text.length_takeWhile_le isBlank cs
  | comment => exact (commentRule_le h).2
  | cast =>
    obtain ⟨-, lead, word, trail, rest, rfl, -, -, -, rfl⟩ := castRule_spec h
    simp only [length_cons, length_append]
    omega
  | number => exact (numberRule_spec h).2
  | string => exact (stringRule_spec h).2
  | name => exact (nameRule_spec h).2
  | sign =>
    obtain ⟨sign, -, hstarts, rfl⟩ := signRule_spec h
    exact (List.isPrefixOf_iff_prefix.mp hstarts).length_le
  | other => simp [Family.rule] at h

/-! ## Markup -/

theorem openTagRule_spec (h : openTagRule cs = some (kind, n)) :
    (kind = .openTag ∨ kind = .openTagWithEcho) ∧ n ≤ cs.length := by
  unfold openTagRule at h
  split at h
  · cases h
    exact ⟨.inr rfl, by simp⟩
  · next cs _ =>
    have := Text.identLength_le cs
    simp only at h
    split at h
    · cases h
      exact ⟨.inl rfl, by simp only [length_cons]; omega⟩
    · simp at h
  · simp at h

theorem markupRule_spec (h : markupRule cs = some (kind, n)) :
    (kind = .openTag ∨ kind = .openTagWithEcho ∨ kind = .inlineHtml) ∧ n ≤ cs.length := by
  simp only [markupRule, Option.orElse_eq_orElse, Option.orElse_eq_or, Option.or_eq_some_iff] at h
  rcases h with h | ⟨-, h⟩
  · obtain ⟨hkind | hkind, hn⟩ := openTagRule_spec h
    · exact ⟨.inl hkind, hn⟩
    · exact ⟨.inr (.inl hkind), hn⟩
  · split at h
    · simp at h
    · cases h
      exact ⟨.inr (.inr rfl), markupLength_le cs⟩

end Lexeme

/-! ## The relation -/

/-- `Mode.rule` reads a kind of its own; the end of the text is none of them. -/
theorem Mode.rule_spec {mode : Mode} {cs : List Char} {kind : TokenKind} {n : Nat}
    (h : mode.rule cs = some (kind, n)) : kind ≠ .eof ∧ n ≤ cs.length := by
  cases mode with
  | markup =>
    obtain ⟨hkind, hn⟩ := Lexeme.markupRule_spec h
    refine ⟨?_, hn⟩
    rcases hkind with rfl | rfl | rfl <;> decide
  | code =>
    have hfam := Lexeme.codeRule_family h
    refine ⟨?_, Lexeme.Family.rule_le hfam⟩
    rintro rfl
    simp [Lexeme.family, Lexeme.Family.rule] at hfam

namespace Lexer

/-- The characters are the lexemes one after the other, each read by the rules of its mode. -/
inductive Lexes : Mode → List Lexeme → List Char → Prop
  | nil {mode : Mode} : Lexes mode [] []
  | cons {mode : Mode} {x : Lexeme} {xs : List Lexeme} {rest : List Char} : x.text ≠ [] →
      mode.rule (x.text ++ rest) = some (x.kind, x.text.length) →
      Lexes (mode.next x.kind) xs rest → Lexes mode (x :: xs) (x.text ++ rest)

variable {mode : Mode} {xs : List Lexeme} {cs : List Char}

theorem Lexes.flatMap_text (h : Lexes mode xs cs) : xs.flatMap Lexeme.text = cs := by
  induction h with
  | nil => rfl
  | cons _ _ _ ih => rw [flatMap_cons, ih]

/-- What `lexemes` reads without leaving anything is read by `Lexes`. -/
theorem lexes_of_lexemes (h : lexemes mode cs = (xs, [])) : Lexes mode xs cs := by
  fun_induction lexemes mode cs generalizing xs with
  | case1 mode =>
    cases h
    exact .nil
  | case2 mode c cs kind n hrule rest left hrest ih =>
    cases h
    have hn := (Mode.rule_spec hrule).2
    rw [length_cons] at hn
    have hcut : c :: cs = (c :: cs.take n) ++ cs.drop n := by
      rw [cons_append, take_append_drop]
    have hlen : (c :: cs.take n).length = n + 1 := by
      rw [length_cons, length_take_of_le (by omega)]
    rw [hcut] at hrule ⊢
    exact .cons (by simp) (by rw [hrule, hlen]) (ih hrest)
  | case3 => simp at h

theorem lexemes_of_lexes (h : Lexes mode xs cs) : lexemes mode cs = (xs, []) := by
  induction h with
  | nil => rw [lexemes]
  | @cons mode x xs rest hne hrule _ ih =>
    obtain ⟨kind, text⟩ := x
    cases text with
    | nil => exact absurd rfl hne
    | cons c cs =>
      simp only [cons_append, length_cons] at hrule ⊢
      rw [lexemes, hrule]
      simp only [drop_left, take_left, ih]

/-- No lexeme is of the kind `eof`. -/
theorem Lexes.kind_ne_eof (h : Lexes mode xs cs) : ∀ x ∈ xs, x.kind ≠ .eof := by
  induction h with
  | nil => simp
  | cons _ hrule _ ih => exact forall_mem_cons.mpr ⟨(Mode.rule_spec hrule).1, ih⟩

theorem Lexes.text_ne_nil (h : Lexes mode xs cs) : ∀ x ∈ xs, x.text ≠ [] := by
  induction h with
  | nil => simp
  | cons hne _ _ ih => exact forall_mem_cons.mpr ⟨hne, ih⟩

end Lexer

end CodeLayout
