import CodeLayout.Proofs.Token.Lexes

/-!
# Tokens tile their source

The tokens of a text are its lexemes, each at the offset where the ones before it end, and behind
them an empty token for the end of the text (`tokenizeIn_eq_ok_iff`, `Placed`).  Their texts are the
lexemes' own; a blank token covers blanks only, and a cast is a type name between parentheses with
spaces and tabs around it.
-/

namespace CodeLayout

open List

/-- What `any` finds of an answer belongs to an answer that is there. -/
theorem exists_ok_of_any {ε α : Type} {x : Except ε α} {f : α → Bool}
    (h : x.toOption.any f = true) : ∃ a, x = .ok a ∧ f a = true := by
  cases x with
  | error e => cases h
  | ok a => exact ⟨a, rfl, h⟩

namespace Lexer

/-! ## Lexemes of a kind -/

variable {mode : Mode} {xs : List Lexeme} {cs : List Char} {x : Lexeme} {i : Nat}

/-- A lexeme of a section's own kind is read by the rule of the `family` of that kind. -/
theorem Lexes.family_rule (h : Lexes mode xs cs) (hx : x ∈ xs)
    (hfam : Lexeme.family x.kind ≠ .other) :
    ∃ rest, (Lexeme.family x.kind).rule (x.text ++ rest) = some (x.kind, x.text.length) := by
  induction h with
  | nil => simp at hx
  | @cons mode y xs rest hne hrule _ ih =>
    rcases mem_cons.mp hx with rfl | hx
    · refine ⟨rest, ?_⟩
      cases mode with
      | code => exact Lexeme.codeRule_family hrule
      | markup =>
        rcases (Lexeme.markupRule_spec hrule).1 with hk | hk | hk <;>
          exact absurd (by rw [hk]; rfl) hfam
    · exact ih hx

theorem Lexes.blank (h : Lexes mode xs cs) (hx : x ∈ xs) (hkind : x.kind = .whitespace) :
    ∀ c ∈ x.text, Lexeme.isBlank c = true := by
  obtain ⟨rest, hrule⟩ := h.family_rule hx (by rw [hkind]; decide)
  rw [hkind] at hrule
  obtain ⟨-, hlen, -⟩ := Lexeme.blankRule_spec hrule
  have htake : x.text = (x.text ++ rest).takeWhile Lexeme.isBlank := by
    have := prefix_iff_eq_take.mp (List.takeWhile_prefix Lexeme.isBlank (l := x.text ++ rest))
    rw [← hlen, take_left] at this
    exact this.symm
  intro c hc
  rw [htake] at hc
  exact mem_takeWhile_imp hc

theorem toLower_letter {c : Char} (h : 97 ≤ c.toLower.toNat ∧ c.toLower.toNat ≤ 122) :
    65 ≤ c.toNat ∧ c.toNat ≤ 122 := by
  unfold Char.toLower at h
  split at h
  · next hc =>
    have h1 : 65 ≤ c.toNat := UInt32.le_iff_toNat_le.mp hc.1
    have h2 : c.toNat ≤ 90 := UInt32.le_iff_toNat_le.mp hc.2
    omega
  · omega

/-- `castTypes` are words of letters. -/
theorem lowerWord_mem_castTypes {word : List Char} (h : Lexeme.lowerWord word ∈ Lexeme.castTypes) :
    word ≠ [] ∧ ∀ c ∈ word, 65 ≤ c.toNat ∧ c.toNat ≤ 122 := by
  have hletters : ∀ w ∈ Lexeme.castTypes,
      w.toList ≠ [] ∧ w.toList.all (fun c => 97 ≤ c.toNat ∧ c.toNat ≤ 122) = true := by decide
  obtain ⟨hne, hall⟩ := hletters _ h
  rw [Lexeme.lowerWord, String.toList_ofList] at hne hall
  refine ⟨by simpa using hne, fun c hc => toLower_letter ?_⟩
  exact of_decide_eq_true (all_eq_true.mp hall _ (mem_map_of_mem hc))

/-- A `cast` is a type name between parentheses, with spaces and tabs around it. -/
theorem Lexes.cast (h : Lexes mode xs cs) (hx : x ∈ xs) (hkind : x.kind = .cast) :
    ∃ lead word trail, x.text = '(' :: (lead ++ word ++ trail) ++ [')'] ∧
      (∀ c ∈ lead, Text.isTabOrSpace c = true) ∧ (∀ c ∈ trail, Text.isTabOrSpace c = true) ∧
      Lexeme.lowerWord word ∈ Lexeme.castTypes := by
  obtain ⟨rest, hrule⟩ := h.family_rule hx (by rw [hkind]; decide)
  rw [hkind] at hrule
  obtain ⟨-, lead, word, trail, rest', heq, hlead, htrail, hword, hlen⟩ :=
    Lexeme.castRule_spec hrule
  refine ⟨lead, word, trail, ?_, hlead, htrail, hword⟩
  have heq' : x.text ++ rest = ('(' :: (lead ++ word ++ trail) ++ [')']) ++ rest' := by
    rw [heq]
    simp
  refine (append_inj heq' ?_).1
  rw [hlen]
  simp only [length_append, length_cons, length_nil]

/-! ## Offsets -/

/-- The offset at which the lexeme at an index starts. -/
def start (xs : List Lexeme) (i : Nat) : Nat := Text.sizeOfChars ((xs.take i).flatMap Lexeme.text)

theorem start_succ (hi : i < xs.length) :
    start xs (i + 1) = start xs i + Text.sizeOfChars xs[i].text := by
  rw [start, take_succ_eq_append_getElem hi, flatMap_append, Text.sizeOfChars_append]
  simp [start]

/-- The size of a stretch of lexemes is the distance of its `start` and its end. -/
theorem start_add_stretch (xs : List Lexeme) {j : Nat} (h : i ≤ j) :
    start xs i + Text.sizeOfChars (((xs.take j).drop i).flatMap Lexeme.text) = start xs j := by
  have htake : xs.take j = xs.take i ++ (xs.take j).drop i := by
    conv_lhs => rw [← take_append_drop i (xs.take j), take_take, Nat.min_eq_left h]
  rw [start, start, ← Text.sizeOfChars_append, ← flatMap_append, ← htake]

theorem place_length (n : Nat) (xs : List Lexeme) : (place n xs).length = xs.length := by
  induction xs generalizing n with
  | nil => rfl
  | cons x xs ih => simp [place, ih]

theorem place_append (n : Nat) (as bs : List Lexeme) :
    place n (as ++ bs) =
      place n as ++ place (n + Text.sizeOfChars (as.flatMap Lexeme.text)) bs := by
  induction as generalizing n with
  | nil => simp [place]
  | cons a as ih => simp [place, ih, Nat.add_assoc]

theorem place_getElem? (n : Nat) (xs : List Lexeme) (i : Nat) :
    (place n xs)[i]? =
      xs[i]?.map fun x => ⟨x.kind, n + start xs i, Text.sizeOfChars x.text⟩ := by
  induction xs generalizing n i with
  | nil => rfl
  | cons x xs ih =>
    cases i with
    | zero => simp [place, start]
    | succ i =>
      rw [place, getElem?_cons_succ, getElem?_cons_succ, ih]
      have hstart : start (x :: xs) (i + 1) = Text.sizeOfChars x.text + start xs i := by
        simp [start]
      simp only [hstart, Nat.add_assoc]

end Lexer

open Lexer (place start place_length)

/-- The tokens are the lexemes, each where the ones before it end, and one for the end. -/
def placed (xs : List Lexeme) : Array Token :=
  (place 0 xs).toArray.push ⟨.eof, start xs xs.length, 0⟩

theorem tokenizeIn_eq_ok_iff {mode : Mode} {source : String} {tokens : Array Token} :
    tokenizeIn mode source = .ok tokens ↔
      ∃ xs, Lexer.Lexes mode xs source.toList ∧ tokens = placed xs := by
  have hend {xs : List Lexeme} (h : Lexer.Lexes mode xs source.toList) :
      start xs xs.length = Text.size source := by
    rw [start, take_length, h.flatMap_text, Text.sizeOfChars_toList]
  constructor
  · intro h
    unfold tokenizeIn at h
    split at h
    · next xs hread =>
      cases h
      have hlex := Lexer.lexes_of_lexemes hread
      exact ⟨xs, hlex, by rw [placed, hend hlex]⟩
    · simp at h
  · rintro ⟨xs, hlex, rfl⟩
    rw [tokenizeIn, Lexer.lexemes_of_lexes hlex]
    simp only [placed, hend hlex]

section Placed

variable {xs : List Lexeme} {i : Nat}

@[simp] theorem placed_size : (placed xs).size = xs.length + 1 := by
  simp [placed, place_length]

theorem placed_getElem? (hi : i < xs.length) :
    (placed xs)[i]? = some ⟨xs[i].kind, start xs i, Text.sizeOfChars xs[i].text⟩ := by
  have hlen : i < (place 0 xs).toArray.size := by simpa [place_length] using hi
  rw [placed, Array.getElem?_push_lt hlen]
  have hget := Lexer.place_getElem? 0 xs i
  rw [List.getElem?_eq_getElem hi, Option.map_some, Nat.zero_add] at hget
  obtain ⟨_, hget⟩ := List.getElem?_eq_some_iff.mp hget
  rw [List.getElem_toArray, hget]

theorem placed_getElem?_end : (placed xs)[xs.length]? = some ⟨.eof, start xs xs.length, 0⟩ := by
  have hlen : (place 0 xs).toArray.size = xs.length := by simp [place_length]
  rw [placed, ← hlen, Array.getElem?_push_size, hlen]

/-- Every `placed` token starts where the lexemes before it end. -/
theorem placed_start (hi : i ≤ xs.length) :
    (placed xs)[i]?.map Token.start = some (start xs i) := by
  rcases Nat.lt_or_eq_of_le hi with hlt | rfl
  · rw [placed_getElem? hlt]
    rfl
  · rw [placed_getElem?_end]
    rfl

variable {j : Nat}

/-- The first and the last token of a stretch. -/
theorem head?_extract (tokens : Array Token) (hij : i < j) (hj : j ≤ tokens.size) :
    (tokens.extract i j).toList.head? = tokens[i]? := by
  rw [head?_eq_getElem?, Array.getElem?_toList, Array.getElem?_extract,
    if_pos (by omega), Nat.add_zero]

theorem getLast?_extract (tokens : Array Token) (hij : i ≤ j) (hj : j < tokens.size) :
    (tokens.extract i (j + 1)).toList.getLast? = tokens[j]? := by
  rw [getLast?_eq_getElem?, Array.getElem?_toList, Array.getElem?_extract, Array.length_toList,
    Array.size_extract, if_pos (by omega)]
  congr 1
  omega

theorem toList_eq_of_lexes {mode : Mode} {source : String}
    (h : Lexer.Lexes mode xs source.toList) (hi : i < xs.length) :
    source.toList =
      (xs.take i).flatMap Lexeme.text ++ xs[i].text ++ (xs.drop (i + 1)).flatMap Lexeme.text := by
  rw [← h.flatMap_text]
  conv_lhs => rw [← take_append_drop i xs, drop_eq_getElem_cons hi]
  rw [flatMap_append, flatMap_cons, append_assoc]

/-- The `placed` tokens from an index on. -/
theorem drop_toList_placed (hi : i ≤ xs.length) :
    (placed xs).toList.drop i = place (start xs i) (xs.drop i) ++
      [⟨.eof, start xs xs.length, 0⟩] := by
  have hlen : (place 0 (xs.take i)).length = i := by
    rw [place_length, length_take_of_le hi]
  have hplace : place 0 xs =
      place 0 (xs.take i) ++ place (start xs i) (xs.drop i) := by
    conv_lhs => rw [← take_append_drop i xs, Lexer.place_append, Nat.zero_add]
    rfl
  rw [placed, Array.toList_push, hplace, append_assoc]
  nth_rewrite 1 [← hlen]
  exact drop_left

/-- A stretch of `placed` tokens before the end. -/
theorem toList_extract_placed (hij : i ≤ j) (hj : j ≤ xs.length) :
    ((placed xs).extract i j).toList = place (start xs i) ((xs.take j).drop i) := by
  have hsplit : xs.drop i = (xs.take j).drop i ++ xs.drop j := by
    conv_lhs => rw [← take_append_drop j xs]
    rw [drop_append_of_le_length (by rw [length_take_of_le hj]; exact hij)]
  have hlen : (place (start xs i) ((xs.take j).drop i)).length = j - i := by
    rw [place_length, length_drop, length_take_of_le hj]
  rw [Array.toList_extract, extract_eq_take_drop, drop_toList_placed (hij.trans hj), hsplit,
    Lexer.place_append, append_assoc, ← hlen]
  exact take_left

/-- All `placed` tokens from an index on, the one at the end included. -/
theorem toList_extract_placed_end (hi : i ≤ xs.length) :
    ((placed xs).extract i (xs.length + 1)).toList =
      place (start xs i) (xs.drop i) ++ [⟨.eof, start xs xs.length, 0⟩] := by
  rw [Array.toList_extract, extract_eq_take_drop, drop_toList_placed hi]
  refine take_of_length_le ?_
  rw [length_append, place_length, length_drop, length_singleton]
  omega

end Placed

end CodeLayout
