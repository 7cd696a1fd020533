import CodeLayout.Proofs.Token.Sections

/-!
# Reading on from a token

No rule looks behind the place where it is tried, and all that the lexer carries along is its mode,
which the last tag decides.  So the text from the start of any token on, read in the mode there, has
the tokens from that one on, moved to the start (`tokenizeIn_resume`).
-/

namespace CodeLayout

open List

/-- The token as it stands in the text without its first `n` bytes. -/
def Token.back (n : Nat) (t : Token) : Token := { t with start := t.start - n }

theorem Mode.eq_ite_code (mode : Mode) (b : Bool) (h : mode = .code ↔ b = true) :
    mode = if b then .code else .markup := by
  cases mode with
  | code => rw [if_pos (h.mp rfl)]
  | markup =>
    have hb : ¬ b = true := fun hb => Mode.noConfusion (h.mpr hb)
    rw [if_neg hb]

namespace Lexer

theorem place_back (m n : Nat) (xs : List Lexeme) :
    (place (m + n) xs).map (Token.back m) = place n xs := by
  induction xs generalizing n with
  | nil => rfl
  | cons x xs ih =>
    have hhead : Token.back m ⟨x.kind, m + n, Text.sizeOfChars x.text⟩ =
        ⟨x.kind, n, Text.sizeOfChars x.text⟩ := by
      simp [Token.back]
    rw [place, place, map_cons, hhead, Nat.add_assoc, ih]

theorem le_start_of_mem_place {n : Nat} {xs : List Lexeme} {t : Token} (h : t ∈ place n xs) :
    n ≤ t.start := by
  induction xs generalizing n with
  | nil => cases h
  | cons x xs ih =>
    rcases mem_cons.mp h with rfl | h
    · exact Nat.le_refl _
    · exact Nat.le_trans (Nat.le_add_right _ _) (ih h)

end Lexer

variable {k : Nat} {mode : Mode} {source : String} {tokens : Array Token} {t : Token}

/-- The `placed` tokens from an index on, moved to the start, are those of the lexemes from there
on. -/
theorem extract_placed_back {xs : List Lexeme} (hk : k ≤ xs.length) :
    ((placed xs).extract k).map (Token.back (Lexer.start xs k)) = placed (xs.drop k) := by
  have hstop : Lexer.start xs xs.length =
      Lexer.start xs k + Lexer.start (xs.drop k) (xs.drop k).length := by
    have hall : Lexer.start (xs.drop k) (xs.drop k).length =
        Text.sizeOfChars ((xs.drop k).flatMap Lexeme.text) := by
      rw [Lexer.start, take_length]
    rw [hall, ← Lexer.start_add_stretch xs hk, take_length]
  have hlast : Token.back (Lexer.start xs k) ⟨.eof, Lexer.start xs xs.length, 0⟩ =
      ⟨.eof, Lexer.start (xs.drop k) (xs.drop k).length, 0⟩ := by
    rw [hstop]
    simp [Token.back]
  apply Array.toList_inj.mp
  rw [Array.toList_map, placed_size, toList_extract_placed_end hk, toList_placed, map_append,
    map_singleton, hlast]
  have hplace := Lexer.place_back (Lexer.start xs k) 0 (xs.drop k)
  rw [Nat.add_zero] at hplace
  rw [hplace]

/-- An index among the `placed` tokens is one among the lexemes, or that of the end. -/
theorem placed_inv {xs : List Lexeme} (ht : (placed xs)[k]? = some t) :
    k ≤ xs.length ∧ t.start = Lexer.start xs k := by
  have hk : k ≤ xs.length := by
    obtain ⟨hlt, -⟩ := Array.getElem?_eq_some_iff.mp ht
    rw [placed_size] at hlt
    omega
  have hstart := placed_start hk
  rw [ht] at hstart
  exact ⟨hk, Option.some.inj hstart⟩

/-- `tokenizeIn` reads what follows the start of a token, in the mode there, as the tokens from it
on. -/
theorem tokenizeIn_resume (h : tokenizeIn mode source = .ok tokens) (ht : tokens[k]? = some t) :
    ∃ rest, Text.slice? source t.start (Text.size source) = some rest ∧
      tokenizeIn (if insideAfter (mode == .code) ((tokens.toList.take k).map Token.kind)
        then .code else .markup) rest = .ok ((tokens.extract k).map (Token.back t.start)) := by
  obtain ⟨xs, hlex, rfl⟩ := tokenizeIn_eq_ok_iff.mp h
  obtain ⟨hk, hstart⟩ := placed_inv ht
  -- cut the lexemes at the index: the front decides the mode, the back is what is read again
  rw [← take_append_drop k xs] at hlex
  obtain ⟨rest, hcut, hrest⟩ := hlex.append_inv
  have hmode : mode.after (xs.take k) =
      if insideAfter (mode == .code) (((placed xs).toList.take k).map Token.kind)
        then .code else .markup := by
    rw [kinds_take_placed hk]
    exact Mode.eq_ite_code _ _ (mode.after_eq_code_iff _)
  refine ⟨String.ofList rest, ?_, ?_⟩
  · have hsize : Text.size source = Lexer.start xs k + Text.sizeOfChars rest := by
      rw [← Text.sizeOfChars_toList, hcut, Text.sizeOfChars_append]
      rfl
    rw [hstart, hsize]
    exact Text.slice?_of_toList (by rw [hcut, append_nil])
  · rw [← hmode, hstart, extract_placed_back hk]
    exact tokenizeIn_eq_ok_iff.mpr ⟨xs.drop k, by rwa [String.toList_ofList], rfl⟩

/-- `Token.back` can be undone for the tokens from an index on. -/
theorem extract_back_forth (h : tokenizeIn mode source = .ok tokens) (ht : tokens[k]? = some t) :
    ((tokens.extract k).map (Token.back t.start)).map
      (fun u => { u with start := u.start + t.start }) = tokens.extract k := by
  obtain ⟨xs, -, rfl⟩ := tokenizeIn_eq_ok_iff.mp h
  obtain ⟨hk, hstart⟩ := placed_inv ht
  -- none of them starts before the first one
  have hle : ∀ u ∈ ((placed xs).extract k).toList, t.start ≤ u.start := by
    intro u hu
    rw [placed_size, toList_extract_placed_end hk] at hu
    rw [hstart]
    rcases mem_append.mp hu with hu | hu
    · exact Lexer.le_start_of_mem_place hu
    · rw [mem_singleton.mp hu, ← Lexer.start_add_stretch xs hk]
      exact Nat.le_add_right _ _
  rw [Array.map_map]
  refine (Array.map_congr_left fun u hu => ?_).trans (Array.map_id _)
  have := hle u (Array.mem_toList_iff.mpr hu)
  show ({ u with start := u.start - t.start + t.start } : Token) = u
  rw [Nat.sub_add_cancel this]

/-- `tokenize` can be resumed at every token of a file: what follows its start, read as a fragment
if the last tag before it opens a section and as a file otherwise, has exactly the tokens from it
on, each at its offset from there. -/
theorem tokenize_resume {source : String} {tokens : Array Token}
    (h : tokenize source = .ok tokens) {k : Nat} {t : Token} (ht : tokens[k]? = some t) :
    ∃ rest, Text.slice? source t.start (Text.size source) = some rest ∧
      (if insideAfter false ((tokens.toList.take k).map Token.kind)
        then tokenizeCode rest else tokenize rest) =
          .ok ((tokens.extract k).map (Token.back t.start)) := by
  obtain ⟨rest, hslice, hread⟩ := tokenizeIn_resume h ht
  refine ⟨rest, hslice, ?_⟩
  rw [← hread]
  show _ = tokenizeIn (if insideAfter false _ = true then .code else .markup) rest
  split
  · rfl
  · rfl

/-- Behind the open tag of a short file the text is read on as a fragment. -/
theorem tokenize_resume_behind_tag :
    ∃ rest, Text.slice? "a<?= 1 ?>" 4 (Text.size "a<?= 1 ?>") = some rest ∧
      tokenizeCode rest = .ok #[⟨.whitespace, 0, 1⟩, ⟨.int, 1, 1⟩, ⟨.whitespace, 2, 1⟩,
        ⟨.closeTag, 3, 2⟩, ⟨.eof, 5, 0⟩] := by
  have hread : (tokenize "a<?= 1 ?>").toOption = some #[⟨.inlineHtml, 0, 1⟩,
      ⟨.openTagWithEcho, 1, 3⟩, ⟨.whitespace, 4, 1⟩, ⟨.int, 5, 1⟩, ⟨.whitespace, 6, 1⟩,
      ⟨.closeTag, 7, 2⟩, ⟨.eof, 9, 0⟩] := by decide +kernel
  cases h : tokenize "a<?= 1 ?>" with
  | error e => rw [h] at hread; cases hread
  | ok tokens =>
      rw [h] at hread
      cases hread
      have ht : (#[⟨.inlineHtml, 0, 1⟩, ⟨.openTagWithEcho, 1, 3⟩, ⟨.whitespace, 4, 1⟩,
          ⟨.int, 5, 1⟩, ⟨.whitespace, 6, 1⟩, ⟨.closeTag, 7, 2⟩, ⟨.eof, 9, 0⟩] :
          Array Token)[2]? = some ⟨.whitespace, 4, 1⟩ := rfl
      obtain ⟨rest, hslice, hcode⟩ := tokenize_resume h ht
      rw [if_pos (by decide)] at hcode
      exact ⟨rest, hslice, by simpa [Token.back] using hcode⟩

end CodeLayout
