import CodeLayout.Text.Lines

/-!
# Cutting a text into lines

The lines of a text, joined, are the text; some of its first lines, joined, are its start up to a
line feed.
-/

namespace CodeLayout.Text

open List

theorem splitLines_ne_nil (cs : List Char) : splitLines cs ≠ [] := by
  cases cs with
  | nil => exact cons_ne_nil _ _
  | cons c cs =>
    rw [splitLines]
    split
    · exact cons_ne_nil _ _
    · split <;> exact cons_ne_nil _ _

/-- `joinLines` puts a line feed in front of every line after the first one. -/
theorem joinLines_cons (line : List Char) (lines : List (List Char)) :
    joinLines (line :: lines) = line ++ lines.flatMap ('\n' :: ·) := by
  induction lines generalizing line with
  | nil => rw [joinLines, flatMap_nil, append_nil]
  | cons l lines ih =>
    rw [joinLines, ih l, flatMap_cons, cons_append]
    exact cons_ne_nil _ _

theorem joinLines_splitLines (cs : List Char) : joinLines (splitLines cs) = cs := by
  induction cs with
  | nil => rfl
  | cons c cs ih =>
    rw [splitLines]
    cases hlines : splitLines cs with
    | nil => exact absurd hlines (splitLines_ne_nil cs)
    | cons line lines =>
      rw [hlines] at ih
      split
      · next hc =>
        rw [joinLines, ih, eq_of_beq hc, nil_append]
        exact cons_ne_nil _ _
      · rw [joinLines_cons, cons_append, ← joinLines_cons, ih]

/-- `splitLines` leaves no line feed in a line. -/
theorem not_mem_splitLines (cs : List Char) : ∀ line ∈ splitLines cs, '\n' ∉ line := by
  induction cs with
  | nil => simp [splitLines]
  | cons c cs ih =>
    rw [splitLines]
    split
    · simpa using ih
    · next hc =>
      cases hlines : splitLines cs with
      | nil => exact absurd hlines (splitLines_ne_nil cs)
      | cons line lines =>
        rw [hlines, forall_mem_cons] at ih
        rw [forall_mem_cons]
        exact ⟨not_mem_cons_of_ne_of_not_mem (by rintro rfl; exact hc rfl) ih.1, ih.2⟩

theorem splitLines_append {line : List Char} (hline : '\n' ∉ line) (cs : List Char) :
    splitLines (line ++ '\n' :: cs) = line :: splitLines cs := by
  induction line with
  | nil => rfl
  | cons c line ih =>
    rw [mem_cons, not_or] at hline
    rw [cons_append, splitLines, if_neg (by simpa using Ne.symm hline.1), ih hline.2]

theorem splitLines_joinLines {line : List Char} (hline : '\n' ∉ line) {lines : List (List Char)}
    (hlines : ∀ l ∈ lines, '\n' ∉ l) : splitLines (joinLines (line :: lines)) = line :: lines := by
  induction lines generalizing line with
  | nil =>
    rw [joinLines]
    induction line with
    | nil => rfl
    | cons c line ih =>
      rw [mem_cons, not_or] at hline
      rw [splitLines, if_neg (by simpa using Ne.symm hline.1), ih hline.2]
  | cons l lines ih =>
    rw [forall_mem_cons] at hlines
    rw [joinLines, splitLines_append hline, ih hlines.1 hlines.2]
    exact cons_ne_nil _ _

/-- Behind the first lines of `joinLines` there is a line feed. -/
theorem joinLines_take {lines : List (List Char)} {k : Nat} (hpos : 0 < k) (hk : k < lines.length) :
    ∃ rest, joinLines lines = joinLines (lines.take k) ++ '\n' :: rest := by
  obtain ⟨line, lines, rfl⟩ := exists_cons_of_length_pos (Nat.zero_lt_of_lt hk)
  obtain ⟨k, rfl⟩ := Nat.exists_eq_add_one_of_ne_zero (Nat.ne_of_gt hpos)
  have hlt : k < lines.length := Nat.lt_of_succ_lt_succ hk
  refine ⟨lines[k] ++ (lines.drop (k + 1)).flatMap ('\n' :: ·), ?_⟩
  rw [take_succ_cons, joinLines_cons, joinLines_cons, append_assoc, ← cons_append,
    ← flatMap_cons, ← drop_eq_getElem_cons hlt, ← flatMap_append,
    take_append_drop]

end CodeLayout.Text
