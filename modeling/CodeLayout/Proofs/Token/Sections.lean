import CodeLayout.Proofs.Token.Tiling
import Mathlib.Data.List.Induction

/-!
# Sections of a file

A file is markup with sections of code in it.  A section begins behind an open tag, or where a
fragment starts, and runs through the next close tag or to the end of the text.

The lexer follows this by its mode.  Here it is said without the mode, from the tokens alone
(`insideAfter`), and the open tags are said without the lexer's rule (`StartsSection`).  The tokens
of a text are lossless and agree with both (`Lexes.lossless`).
-/

namespace CodeLayout

open List
open Text (identLength isIdentContinue sizeOfChars)

namespace TokenKind

/-- Markup and the tags that open a section, which stand outside of sections. -/
def isMarkup : TokenKind → Bool
  | inlineHtml | openTag | openTagWithEcho => true
  | _ => false

/-- The tags at both ends of a section. -/
def isTag : TokenKind → Bool
  | openTag | openTagWithEcho | closeTag => true
  | _ => false

end TokenKind

/-- Is the place behind tokens of these kinds inside a section?  The last tag decides; without one
it is the start of the text, which may be that of a fragment. -/
def insideAfter (fragment : Bool) (kinds : List TokenKind) : Bool :=
  match kinds.reverse.find? TokenKind.isTag with
  | some .closeTag => false
  | some _ => true
  | none => fragment

/-- The characters go on with an open tag: the echo form, or the long form, where the word ends
behind it. -/
def StartsSection (cs : List Char) : Prop :=
  (∃ rest, cs = '<' :: '?' :: '=' :: rest) ∨
    ∃ word rest, cs = '<' :: '?' :: (word ++ rest) ∧ Lexeme.lowerWord word = "php" ∧
      ∀ c, rest.head? = some c → isIdentContinue c = false

/-- The tokens stand one after the other between two offsets. -/
def Contiguous : Nat → Nat → List Token → Prop
  | start, stop, [] => start = stop
  | start, stop, t :: ts => t.start = start ∧ Contiguous t.stop stop ts

/-! ## Open tags -/

namespace Lexeme

variable {c : Char} {cs rest : List Char} {kind : TokenKind} {n : Nat}

/-- A character whose `toLower` is a letter may stand anywhere in an identifier. -/
theorem isIdent_of_toLower (h : 97 ≤ c.toLower.toNat ∧ c.toLower.toNat ≤ 122) :
    Text.isIdentStart c = true ∧ isIdentContinue c = true := by
  have hascii : c.toNat < 128 := by
    have := Lexer.toLower_letter h
    omega
  have halpha : c.isAlpha = true := by
    show (c.isUpper || c.isLower) = true
    rw [Bool.or_eq_true]
    unfold Char.toLower at h
    split at h
    · next hupper =>
      left
      exact decide_eq_true hupper
    · right
      show (decide (c.val ≥ 'a'.val) && decide (c.val ≤ 'z'.val)) = true
      rw [Bool.and_eq_true, decide_eq_true_eq, decide_eq_true_eq]
      exact ⟨UInt32.le_iff_toNat_le.mpr h.1, UInt32.le_iff_toNat_le.mpr h.2⟩
  simp [Text.isIdentStart, isIdentContinue, hascii, halpha, Char.isAlphanum]

/-- `identLength` of a word that may be followed by nothing of an identifier. -/
theorem identLength_append (hc : Text.isIdentStart c = true)
    (hcs : ∀ d ∈ cs, isIdentContinue d = true)
    (hrest : ∀ d, rest.head? = some d → isIdentContinue d = false) :
    identLength (c :: cs ++ rest) = (c :: cs).length := by
  have hstop : rest.takeWhile isIdentContinue = [] := by
    cases rest with
    | nil => rfl
    | cons d rest => simp [hrest d rfl]
  rw [cons_append, identLength, if_pos hc, takeWhile_append_of_pos hcs, hstop,
    append_nil, length_cons, Nat.add_comm]

/-- `identLength` stops at a character with which the identifier cannot go on. -/
theorem head?_drop_identLength (h : identLength cs ≠ 0)
    (hc : (cs.drop (identLength cs)).head? = some c) : isIdentContinue c = false := by
  cases cs with
  | nil => exact absurd rfl h
  | cons d cs =>
    rw [identLength] at h hc
    split at h
    · next hd =>
      rw [if_pos hd, Nat.add_comm, drop_succ_cons, Text.drop_length_takeWhile] at hc
      have := head?_dropWhile_not isIdentContinue cs
      rw [hc] at this
      simpa using this
    · exact absurd rfl h

/-- `identLength` of the word of the long form. -/
theorem identLength_php {word : List Char} (hword : lowerWord word = "php")
    (hrest : ∀ c, rest.head? = some c → isIdentContinue c = false) :
    identLength (word ++ rest) = word.length := by
  have hletters : ∀ c ∈ word, 97 ≤ c.toLower.toNat ∧ c.toLower.toNat ≤ 122 := by
    intro c hc
    have hmem : c.toLower ∈ ['p', 'h', 'p'] := by
      have hlower : word.map Char.toLower = ['p', 'h', 'p'] := String.ofList_injective hword
      rw [← hlower]
      exact mem_map_of_mem hc
    simp only [mem_cons, not_mem_nil, or_false] at hmem
    rcases hmem with h | h | h
    all_goals rw [h]; exact ⟨by decide, by decide⟩
  cases word with
  | nil => exact absurd hword (by decide)
  | cons c cs =>
    refine identLength_append (isIdent_of_toLower (hletters c (by simp))).1 ?_ hrest
    intro d hd
    exact (isIdent_of_toLower (hletters d (by simp [hd]))).2

/-- `openTagRule` reads an open tag exactly where there is one. -/
theorem openTagRule_isSome_iff : (openTagRule cs).isSome = true ↔ StartsSection cs := by
  constructor
  · intro h
    unfold openTagRule at h
    split at h
    · next rest => exact .inl ⟨rest, rfl⟩
    · next cs _ =>
      simp only at h
      split at h
      · next hword =>
        have hword := eq_of_beq hword
        refine .inr ⟨cs.take (identLength cs), cs.drop (identLength cs), ?_, hword, ?_⟩
        · rw [take_append_drop]
        · intro c hc
          refine head?_drop_identLength ?_ hc
          -- the word was read as an identifier, since it is not empty
          intro hzero
          rw [hzero, take_zero] at hword
          exact absurd hword (by decide)
      · simp at h
    · simp at h
  · rintro (⟨rest, rfl⟩ | ⟨word, rest, rfl, hword, hrest⟩)
    · rfl
    · have hlen := identLength_php hword hrest
      unfold openTagRule
      split
      · rfl
      · next cs _ heq =>
        simp only [List.cons.injEq, true_and] at heq
        subst heq
        simp [hlen, hword]
      · next h => exact absurd rfl (h _)

/-- `markupLength` goes up to the next open tag, or to the end. -/
theorem markupLength_spec (cs : List Char) :
    (∀ as bs, cs = as ++ bs → as.length < markupLength cs → ¬ StartsSection bs) ∧
      (cs.drop (markupLength cs) = [] ∨ StartsSection (cs.drop (markupLength cs))) := by
  induction cs with
  | nil => exact ⟨fun as bs _ h => absurd h (Nat.not_lt_zero _), .inl rfl⟩
  | cons c cs ih =>
    rw [markupLength]
    split
    · next htag =>
      refine ⟨fun as bs _ h => absurd h (Nat.not_lt_zero _), .inr ?_⟩
      exact openTagRule_isSome_iff.mp htag
    · next htag =>
      refine ⟨?_, ih.2⟩
      intro as bs hcut hlt
      -- no tag starts at the first character, and none inside the rest of the markup
      cases as with
      | nil =>
        rw [nil_append] at hcut
        rw [← hcut, ← openTagRule_isSome_iff]
        exact htag
      | cons a as =>
        obtain ⟨-, hcut⟩ := List.cons.inj hcut
        exact ih.1 as bs hcut (Nat.lt_of_succ_lt_succ hlt)

/-- What `markupRule` reads as markup holds no open tag, and one follows unless the text ends. -/
theorem markupRule_html {text : List Char}
    (h : markupRule (text ++ rest) = some (.inlineHtml, text.length)) :
    (∀ as bs, text = as ++ bs → bs ≠ [] → ¬ StartsSection (bs ++ rest)) ∧
      (rest = [] ∨ StartsSection rest) := by
  simp only [markupRule, Option.orElse_eq_orElse, Option.orElse_eq_or, Option.or_eq_some_iff] at h
  rcases h with h | ⟨-, h⟩
  · -- the rule for tags reads no markup
    rcases (openTagRule_spec h).1 with hkind | hkind <;> cases hkind
  · have hlen : markupLength (text ++ rest) = text.length := by
      split at h
      · simp at h
      · simpa using h
    obtain ⟨hinside, hend⟩ := markupLength_spec (text ++ rest)
    rw [hlen] at hinside hend
    rw [drop_left] at hend
    refine ⟨?_, hend⟩
    rintro as bs rfl hbs
    refine hinside as (bs ++ rest) (append_assoc _ _ _) ?_
    have := length_pos_of_ne_nil hbs
    rw [length_append]
    omega

theorem not_isMarkup_of_codeRule (h : codeRule cs = some (kind, n)) : kind.isMarkup = false := by
  have hfamily := codeRule_family h
  cases kind <;> first | rfl | cases hfamily

theorem isMarkup_of_markupRule (h : markupRule cs = some (kind, n)) : kind.isMarkup = true := by
  rcases (markupRule_spec h).1 with rfl | rfl | rfl <;> rfl

end Lexeme

/-! ## Modes -/

/-- The mode after lexemes. -/
def Mode.after (mode : Mode) (xs : List Lexeme) : Mode := xs.foldl (fun m x => m.next x.kind) mode

variable {kind : TokenKind}

theorem TokenKind.isTag_iff : kind.isTag = true ↔
    kind = .openTag ∨ kind = .openTagWithEcho ∨ kind = .closeTag := by
  cases kind <;> simp [isTag]

/-- `Mode.next` is another mode only behind a tag. -/
theorem Mode.next_of_not_isTag {mode : Mode} (h : kind.isTag = false) : mode.next kind = mode := by
  cases kind <;> first | rfl | cases h

theorem insideAfter_append_singleton (fragment : Bool) (kinds : List TokenKind) (kind : TokenKind) :
    insideAfter fragment (kinds ++ [kind]) =
      if kind.isTag then kind != .closeTag else insideAfter fragment kinds := by
  rw [insideAfter, reverse_append, reverse_singleton, singleton_append,
    find?_cons]
  cases kind <;> rfl

/-- `Mode.after` is told by the last tag. -/
theorem Mode.after_eq_code_iff (mode : Mode) (xs : List Lexeme) :
    mode.after xs = .code ↔ insideAfter (mode == .code) (xs.map Lexeme.kind) = true := by
  induction xs using List.reverseRecOn with
  | nil => cases mode <;> decide
  | append_singleton xs x ih =>
    have hafter : mode.after (xs ++ [x]) = (mode.after xs).next x.kind := by
      rw [after, foldl_append]
      rfl
    rw [hafter, map_append, map_singleton, insideAfter_append_singleton]
    by_cases htag : x.kind.isTag = true
    · rw [if_pos htag]
      rcases TokenKind.isTag_iff.mp htag with hkind | hkind | hkind <;> simp [hkind, next]
    · rw [if_neg htag, next_of_not_isTag (by simpa using htag)]
      exact ih

namespace Lexer

variable {mode : Mode} {xs as bs : List Lexeme} {x : Lexeme} {cs : List Char}

/-- `Lexes` behind some lexemes is in the mode after them. -/
theorem Lexes.append_inv (h : Lexes mode (as ++ bs) cs) :
    ∃ rest, cs = as.flatMap Lexeme.text ++ rest ∧ Lexes (mode.after as) bs rest := by
  induction as generalizing mode cs with
  | nil => exact ⟨cs, rfl, h⟩
  | cons a as ih =>
    rw [cons_append] at h
    cases h with
    | cons _ _ htail =>
      obtain ⟨rest, rfl, hrest⟩ := ih htail
      exact ⟨rest, by rw [flatMap_cons, append_assoc], hrest⟩

/-- Every lexeme is read at its place by the `rule` of the mode there. -/
theorem Lexes.rule_at (h : Lexes mode (as ++ x :: bs) cs) :
    ∃ rest, cs = as.flatMap Lexeme.text ++ (x.text ++ rest) ∧ x.text ≠ [] ∧
      (mode.after as).rule (x.text ++ rest) = some (x.kind, x.text.length) ∧
      Lexes ((mode.after as).next x.kind) bs rest := by
  obtain ⟨rest, rfl, hrest⟩ := h.append_inv
  cases hrest with
  | cons hne hrule hrest => exact ⟨_, rfl, hne, hrule, hrest⟩

/-- `isMarkup` kinds stand outside of sections, and everything else inside. -/
theorem Lexes.isMarkup_iff (h : Lexes mode (as ++ x :: bs) cs) :
    x.kind.isMarkup = !insideAfter (mode == .code) (as.map Lexeme.kind) := by
  obtain ⟨rest, -, -, hrule, -⟩ := h.rule_at
  have hiff := mode.after_eq_code_iff as
  cases hmode : mode.after as with
  | markup =>
    rw [hmode] at hrule hiff
    have houtside : insideAfter (mode == .code) (as.map Lexeme.kind) = false := by
      rw [← Bool.not_eq_true, ← hiff]
      exact Mode.noConfusion
    rw [houtside, Lexeme.isMarkup_of_markupRule hrule]
    rfl
  | code =>
    rw [hmode] at hrule hiff
    rw [hiff.mp rfl, Lexeme.not_isMarkup_of_codeRule hrule]
    rfl

/-- Only `inlineHtml` is read as markup, outside of sections. -/
theorem Lexes.mode_of_html (h : Lexes mode (as ++ x :: bs) cs) (hkind : x.kind = .inlineHtml) :
    mode.after as = .markup := by
  obtain ⟨rest, -, -, hrule, -⟩ := h.rule_at
  cases hmode : mode.after as with
  | markup => rfl
  | code =>
    rw [hmode] at hrule
    have := Lexeme.not_isMarkup_of_codeRule hrule
    rw [hkind] at this
    exact absurd this (by decide)

/-- Behind `inlineHtml` comes an open tag. -/
theorem Lexes.html_apart {y : Lexeme} (h : Lexes mode (as ++ x :: y :: bs) cs)
    (hkind : x.kind = .inlineHtml) : y.kind ≠ .inlineHtml := by
  obtain ⟨rest, -, -, hrule, hrest⟩ := h.rule_at
  rw [h.mode_of_html hkind, hkind] at hrule hrest
  obtain ⟨-, hend⟩ := Lexeme.markupRule_html hrule
  cases hrest with
  | @cons _ _ _ rest' hne hrule' _ =>
    rcases hend with hnil | htag
    · exact absurd (append_eq_nil_iff.mp hnil).1 hne
    · -- markup that starts where a tag starts would hold one
      intro hy
      rw [hy] at hrule'
      exact (Lexeme.markupRule_html hrule').1 [] y.text rfl hne htag

/-! ## Places -/

/-- `place` puts lexemes one after the other. -/
theorem contiguous_place (n : Nat) (xs : List Lexeme) :
    Contiguous n (n + sizeOfChars (xs.flatMap Lexeme.text)) (place n xs) := by
  induction xs generalizing n with
  | nil => exact (Nat.add_zero n).symm
  | cons x xs ih =>
    rw [place, flatMap_cons, Text.sizeOfChars_append, ← Nat.add_assoc]
    exact ⟨rfl, ih _⟩

theorem mem_place {n : Nat} {t : Token} (h : t ∈ place n xs) :
    ∃ x ∈ xs, t.kind = x.kind ∧ t.length = sizeOfChars x.text := by
  induction xs generalizing n with
  | nil => cases h
  | cons y xs ih =>
    rcases mem_cons.mp h with rfl | h
    · exact ⟨y, mem_cons_self, rfl, rfl⟩
    · obtain ⟨x, hx, hkind, hlen⟩ := ih h
      exact ⟨x, mem_cons_of_mem y hx, hkind, hlen⟩

/-- `place` keeps the texts of the lexemes. -/
theorem flatMap_text_place {source : String} {as : List Char}
    (hsource : source.toList = as ++ xs.flatMap Lexeme.text ++ cs) :
    (place (sizeOfChars as) xs).flatMap (fun t => (t.text source).toList) =
      xs.flatMap Lexeme.text := by
  induction xs generalizing as with
  | nil => rfl
  | cons x xs ih =>
    rw [flatMap_cons] at hsource
    have hcut : source.toList = as ++ x.text ++ (xs.flatMap Lexeme.text ++ cs) := by
      rw [hsource]
      simp
    have htext : Token.text ⟨x.kind, sizeOfChars as, sizeOfChars x.text⟩ source =
        String.ofList x.text := Text.slice_of_toList hcut
    rw [← append_assoc] at hcut
    have hrest := ih hcut
    rw [Text.sizeOfChars_append] at hrest
    rw [place, flatMap_cons, flatMap_cons, htext, String.toList_ofList, hrest]

end Lexer

theorem toList_placed (xs : List Lexeme) : (placed xs).toList =
    Lexer.place 0 xs ++ [⟨.eof, Lexer.start xs xs.length, 0⟩] := by
  rw [placed, Array.toList_push]

theorem kinds_place (n : Nat) (xs : List Lexeme) :
    (Lexer.place n xs).map Token.kind = xs.map Lexeme.kind := by
  induction xs generalizing n with
  | nil => rfl
  | cons x xs ih => rw [Lexer.place, map_cons, map_cons, ih]

theorem kinds_take_placed {xs : List Lexeme} {i : Nat} (hi : i ≤ xs.length) :
    ((placed xs).toList.take i).map Token.kind = (xs.take i).map Lexeme.kind := by
  rw [toList_placed, take_append_of_le_length (by rwa [Lexer.place_length]), map_take,
    kinds_place, map_take]

/-! ## Lossless tokens -/

/-- What holds of the tokens of a text, which starts inside a section if it is a fragment. -/
structure LosslessTokens (fragment : Bool) (source : String) (tokens : List Token) : Prop where
  /-- The tokens follow one another from the start of the text to its end.  Only the last one, which
  marks the end, is empty. -/
  contiguous : ∃ body, tokens = body ++ [⟨.eof, Text.size source, 0⟩] ∧
    Contiguous 0 (Text.size source) body ∧ ∀ t ∈ body, t.kind ≠ .eof ∧ 0 < t.length
  /-- Their texts are the text. -/
  texts : String.join (tokens.map (·.text source)) = source
  /-- Markup and open tags stand outside of sections, and everything else inside. -/
  sections : ∀ i t, tokens[i]? = some t → t.kind ≠ .eof →
    t.kind.isMarkup = !insideAfter fragment ((tokens.take i).map Token.kind)
  /-- Markup is one token up to the next tag. -/
  apart : ∀ i s t, tokens[i]? = some s → tokens[i + 1]? = some t →
    s.kind = .inlineHtml → t.kind ≠ .inlineHtml
  /-- No section starts inside markup. -/
  markup : ∀ t ∈ tokens, t.kind = .inlineHtml → ∀ cs ds, source.toList = cs ++ ds →
    t.start ≤ sizeOfChars cs → sizeOfChars cs < t.stop → ¬ StartsSection ds

section Lossless

variable {mode : Mode} {source : String} {xs : List Lexeme} {i : Nat} {t : Token}

/-- A token other than the one at the end is that of a lexeme. -/
theorem placed_token_at (ht : (placed xs).toList[i]? = some t) (hkind : t.kind ≠ .eof) :
    ∃ x, i < xs.length ∧ xs = xs.take i ++ x :: xs.drop (i + 1) ∧
      t = ⟨x.kind, Lexer.start xs i, sizeOfChars x.text⟩ := by
  rw [Array.getElem?_toList] at ht
  have hi : i < xs.length := by
    have hlt := (Array.getElem?_eq_some_iff.mp ht).1
    rw [placed_size] at hlt
    rcases Nat.lt_or_eq_of_le (Nat.le_of_lt_succ hlt) with hlt | rfl
    · exact hlt
    · rw [placed_getElem?_end] at ht
      cases ht
      exact absurd rfl hkind
  rw [placed_getElem? hi] at ht
  cases ht
  refine ⟨xs[i], hi, ?_, rfl⟩
  rw [← drop_eq_getElem_cons hi, take_append_drop]

section

variable (h : Lexer.Lexes mode xs source.toList)
include h

theorem Lexer.Lexes.sections (ht : (placed xs).toList[i]? = some t) (hkind : t.kind ≠ .eof) :
    t.kind.isMarkup =
      !insideAfter (mode == .code) (((placed xs).toList.take i).map Token.kind) := by
  obtain ⟨x, hi, hxs, rfl⟩ := placed_token_at ht hkind
  rw [kinds_take_placed hi.le]
  rw [hxs] at h
  exact h.isMarkup_iff

theorem Lexer.Lexes.apart {s : Token}
    (hs : (placed xs).toList[i]? = some s) (ht : (placed xs).toList[i + 1]? = some t)
    (hkind : s.kind = .inlineHtml) : t.kind ≠ .inlineHtml := by
  intro hhtml
  obtain ⟨x, -, hxs, rfl⟩ := placed_token_at hs (by rw [hkind]; decide)
  obtain ⟨y, hi, hys, rfl⟩ := placed_token_at ht (by rw [hhtml]; decide)
  have hnext : xs.drop (i + 1) = y :: xs.drop (i + 2) := by
    have hdrop := congrArg (List.drop (i + 1)) hys
    rwa [drop_left' (length_take_of_le hi.le)] at hdrop
  rw [hnext] at hxs
  rw [hxs] at h
  exact h.html_apart hkind hhtml

/-- The characters from a place inside `inlineHtml` on are no `StartsSection`. -/
theorem Lexer.Lexes.markup (ht : t ∈ (placed xs).toList)
    (hkind : t.kind = .inlineHtml) {cs ds : List Char} (hcut : source.toList = cs ++ ds)
    (hstart : t.start ≤ sizeOfChars cs) (hstop : sizeOfChars cs < t.stop) :
    ¬ StartsSection ds := by
  obtain ⟨i, hi⟩ := getElem?_of_mem ht
  obtain ⟨x, hlt, hxs, rfl⟩ := placed_token_at hi (by rw [hkind]; decide)
  rw [hxs] at h
  obtain ⟨rest, hsource, -, hrule, -⟩ := h.rule_at
  rw [h.mode_of_html hkind, show x.kind = _ from hkind] at hrule
  -- the place lies behind what stands before the markup, and before the end of the markup
  obtain ⟨bs, rfl, hbs⟩ := Text.append_split_of_size_le (hsource.symm.trans hcut) hstart
  have hinside : sizeOfChars bs < sizeOfChars x.text := by
    rw [Text.sizeOfChars_append] at hstop
    exact Nat.lt_of_add_lt_add_left hstop
  obtain ⟨ds', hds', rfl⟩ := Text.append_split_of_size_le hbs.symm hinside.le
  refine (Lexeme.markupRule_html hrule).1 bs ds' hds' ?_
  rintro rfl
  rw [append_nil] at hds'
  rw [hds'] at hinside
  exact Nat.lt_irrefl _ hinside

/-- The `placed` tokens of a text that was read are `LosslessTokens`. -/
theorem Lexer.Lexes.lossless :
    LosslessTokens (mode == .code) source (placed xs).toList where
  contiguous := by
    have hend : Lexer.start xs xs.length = Text.size source := by
      rw [Lexer.start, take_length, h.flatMap_text, Text.sizeOfChars_toList]
    refine ⟨Lexer.place 0 xs, by rw [toList_placed, hend], ?_, ?_⟩
    · have := Lexer.contiguous_place 0 xs
      rwa [h.flatMap_text, Text.sizeOfChars_toList, Nat.zero_add] at this
    · intro t ht
      obtain ⟨x, hx, hkind, hlen⟩ := Lexer.mem_place ht
      rw [hkind, hlen]
      exact ⟨h.kind_ne_eof x hx, Text.sizeOfChars_pos (h.text_ne_nil x hx)⟩
  texts := by
    have hsource : source.toList = [] ++ xs.flatMap Lexeme.text ++ [] := by
      rw [h.flatMap_text, nil_append, append_nil]
    have htexts := Lexer.flatMap_text_place hsource
    have hempty : Token.text ⟨.eof, Lexer.start xs xs.length, 0⟩ source = "" := by
      rw [Lexer.start, take_length, h.flatMap_text]
      have hcut : source.toList = source.toList ++ [] ++ [] := by simp
      exact Text.slice_of_toList hcut
    rw [Text.sizeOfChars_nil, h.flatMap_text, flatMap_def] at htexts
    rw [String.join_eq, toList_placed]
    simp only [map_append, map_cons, map_nil, map_map, flatten_append,
      hempty]
    rw [show (String.toList ∘ fun t : Token => t.text source) =
      fun t => (t.text source).toList from rfl, htexts]
    simp
  sections _ _ := h.sections
  apart _ _ _ := h.apart
  markup _ ht hkind _ _ := h.markup ht hkind

end

end Lossless

/-- `tokenize` answers `LosslessTokens` for a file, and `tokenizeCode` for a fragment. -/
theorem tokenize_lossless (source : String) :
    (∀ tokens, tokenize source = .ok tokens → LosslessTokens false source tokens.toList) ∧
      ∀ tokens, tokenizeCode source = .ok tokens → LosslessTokens true source tokens.toList := by
  constructor
  · intro tokens h
    obtain ⟨xs, hlexes, rfl⟩ := tokenizeIn_eq_ok_iff.mp h
    exact hlexes.lossless
  · intro tokens h
    obtain ⟨xs, hlexes, rfl⟩ := tokenizeIn_eq_ok_iff.mp h
    exact hlexes.lossless

/-- A comment ends with its section, and a tag with a longer word is markup. -/
theorem tokenize_lossless_template : ∃ file fragment,
    tokenize "a<?php #b?>c<?=1" = .ok file ∧
      file.toList.map Token.kind = [.inlineHtml, .openTag, .whitespace, .lineComment, .closeTag,
        .inlineHtml, .openTagWithEcho, .int, .eof] ∧
      LosslessTokens false "a<?php #b?>c<?=1" file.toList ∧
      tokenizeCode "(int)?><?phpx<?PHP" = .ok fragment ∧
      fragment.toList.map Token.kind = [.cast, .closeTag, .inlineHtml, .openTag, .eof] ∧
      LosslessTokens true "(int)?><?phpx<?PHP" fragment.toList := by
  have hfile : (tokenize "a<?php #b?>c<?=1").toOption.map (·.toList.map Token.kind) =
      some [.inlineHtml, .openTag, .whitespace, .lineComment, .closeTag, .inlineHtml,
        .openTagWithEcho, .int, .eof] := by decide +kernel
  have hfragment : (tokenizeCode "(int)?><?phpx<?PHP").toOption.map (·.toList.map Token.kind) =
      some [.cast, .closeTag, .inlineHtml, .openTag, .eof] := by decide +kernel
  cases h : tokenize "a<?php #b?>c<?=1" with
  | error e => rw [h] at hfile; cases hfile
  | ok file =>
      cases h' : tokenizeCode "(int)?><?phpx<?PHP" with
      | error e => rw [h'] at hfragment; cases hfragment
      | ok fragment =>
          rw [h] at hfile
          rw [h'] at hfragment
          exact ⟨file, fragment, rfl, Option.some.inj hfile, (tokenize_lossless _).1 _ h, rfl,
            Option.some.inj hfragment, (tokenize_lossless _).2 _ h'⟩

end CodeLayout
