import CodeLayout.Proofs.Render.Relaid

/-!
# Columns

A pass knows the line and the column at which the text ends that it has written so far
(`State.Tracks`).  A run of a pass can be cut at any item: what one step preserves holds where the
pass comes to the item (`Pass.renderFrom_append`).
-/

namespace CodeLayout

open List

/-! ## The column behind characters -/

theorem Text.lastLine_append (as bs : List Char) :
    lastLine (as ++ bs) = if '\n' ∈ bs then lastLine bs else lastLine as ++ bs := by
  rw [lastLine, reverse_append]
  split
  · next hmem =>
    rw [takeWhile_append, if_neg, lastLine]
    intro hlength
    have hall := takeWhile_eq_self_iff.mp
      ((List.takeWhile_prefix (p := (· != '\n'))).eq_of_length hlength)
    simpa using hall '\n' (mem_reverse.mpr hmem)
  · next hnot =>
    rw [takeWhile_append_of_pos, reverse_append, reverse_reverse, lastLine]
    intro c hc
    simp only [bne_iff_ne, ne_eq]
    rintro rfl
    exact hnot (mem_reverse.mp hc)

namespace Style

variable (style : Style)

/-- The column behind characters, counted from the start of their last line. -/
def columnOf (cs : List Char) : Nat := (Text.lastLine cs).foldl style.advance 0

theorem le_foldl_advance (cs : List Char) (column : Nat) :
    column ≤ cs.foldl style.advance column := by
  induction cs generalizing column with
  | nil => exact Nat.le_refl _
  | cons c cs ih =>
    refine Nat.le_trans ?_ (ih _)
    unfold advance
    dsimp only
    split
    · have := Nat.mod_lt column (y := max style.indent.tabSize 1) (by omega)
      omega
    · exact Nat.le_succ _

variable {bs : List Char}

theorem columnOf_append_of_newline (as : List Char) (h : '\n' ∈ bs) :
    style.columnOf (as ++ bs) = style.columnOf bs := by
  rw [columnOf, Text.lastLine_append, if_pos h, columnOf]

theorem columnOf_append (as : List Char) (h : '\n' ∉ bs) :
    style.columnOf (as ++ bs) = bs.foldl style.advance (style.columnOf as) := by
  rw [columnOf, Text.lastLine_append, if_neg h, foldl_append, columnOf]

/-- For `columnOf`, spaces take one column each. -/
theorem columnOf_append_spaces (as : List Char) (n : Nat) :
    style.columnOf (as ++ List.replicate n ' ') = style.columnOf as + n := by
  have hspaces (n column : Nat) :
      (List.replicate n ' ').foldl style.advance column = column + n := by
    induction n generalizing column with
    | zero => rfl
    | succ n ih =>
      rw [replicate_succ, foldl_cons, ih]
      show column + 1 + n = _
      omega
  rw [columnOf_append _ _ (by simp [mem_replicate]), hspaces]

/-- On one line `columnOf` does not fall. -/
theorem columnOf_le_append (as : List Char) (h : '\n' ∉ bs) :
    style.columnOf as ≤ style.columnOf (as ++ bs) := by
  rw [columnOf_append _ _ h]
  exact style.le_foldl_advance _ _

end Style

namespace Render

theorem trailingWidth_eq (style : Style) (text : String) :
    trailingWidth style text = style.columnOf text.toList := by
  rw [trailingWidth, Style.visualWidth, Style.columnAfter, String.toList_ofList, Nat.sub_zero,
    Style.columnOf]

/-! ## What a state knows of the written text -/

namespace State

variable {style : Style} {s : State}

/-- What has been written. -/
def output (s : State) : List Char := s.pieces.toList.flatMap (·.new.toList)

/-- The line and the column are those at which the written text ends. -/
structure Tracks (style : Style) (s : State) : Prop where
  column : s.column = style.columnOf s.output
  line : s.line = s.output.count '\n'

theorem Tracks.init (style : Style) (base : Nat) : Tracks style { base } := ⟨rfl, rfl⟩

theorem output_write (p : Piece) : (s.write style p).output = s.output ++ p.new.toList := by
  unfold write output advance
  dsimp only
  split <;> simp

/-- `write` keeps track of its piece. -/
theorem Tracks.write (h : Tracks style s) (p : Piece) : Tracks style (s.write style p) := by
  refine ⟨?_, ?_⟩
  · rw [output_write]
    unfold State.write State.advance
    by_cases hnew : '\n' ∈ p.new.toList
    · rw [if_pos (by simpa [Text.hasNewline, Text.holds] using hnew),
        style.columnOf_append_of_newline _ hnew, ← trailingWidth_eq]
    · rw [if_neg (by simpa [Text.hasNewline, Text.holds] using hnew), style.columnOf_append _ hnew,
        ← h.column]
      have hle := style.le_foldl_advance p.new.toList s.column
      show s.column + (p.new.toList.foldl style.advance s.column - s.column) = _
      omega
  · rw [output_write, count_append, ← h.line]
    unfold State.write State.advance
    by_cases hnew : '\n' ∈ p.new.toList
    · rw [if_pos (by simpa [Text.hasNewline, Text.holds] using hnew)]
      rfl
    · rw [if_neg (by simpa [Text.hasNewline, Text.holds] using hnew), count_eq_zero.mpr hnew]
      rfl

theorem output_addMark (s : State) (i : Item) : (s.addMark i).output = s.output := by
  rw [output, (s.addMark_spec i).2, output]

/-- `addMark` moves nothing. -/
theorem addMark_place (s : State) (i : Item) :
    (s.addMark i).column = s.column ∧ (s.addMark i).line = s.line := by
  unfold addMark addRole closeMember
  dsimp only
  split
  · exact ⟨rfl, rfl⟩
  · split <;> exact ⟨rfl, rfl⟩
  · exact ⟨rfl, rfl⟩
  · exact ⟨rfl, rfl⟩
  · exact ⟨rfl, rfl⟩
  · split <;> exact ⟨rfl, rfl⟩
  · exact ⟨rfl, rfl⟩

theorem Tracks.addMark (h : Tracks style s) (i : Item) : Tracks style (s.addMark i) := by
  refine ⟨?_, ?_⟩
  · rw [(s.addMark_place i).1, output_addMark, h.column]
  · rw [(s.addMark_place i).2, output_addMark, h.line]

end State

namespace Pass

variable {p : Pass} {s s' : State} {i : Item}

theorem tracks_afterGap (h : s.Tracks p.style) (start : Nat) (old : String) (ahead : List Item) :
    (p.afterGap s start old ahead).Tracks p.style := by
  have hmoved (delta shift : Int) :
      State.Tracks p.style { s with lineDelta := delta, lineShift := shift } := ⟨h.column, h.line⟩
  have hwrite := (hmoved (p.moved old (p.gapBefore s old ahead))
    (p.lineShift s old (p.gapBefore s old ahead))).write (p.gapPiece s start old ahead)
  exact ⟨hwrite.column, hwrite.line⟩

theorem tracks_writeText (h : s.Tracks p.style) (i : Item) : (p.writeText s i).Tracks p.style := by
  have hmoved (base index : Nat) :
      State.Tracks p.style { s with base, prev := some i, index } := ⟨h.column, h.line⟩
  exact (hmoved (p.baseAfter s i) (s.index + 1)).write (p.textPiece s i)

/-! ## Cutting a run -/

/-- `writeGap` writes a stretch of the source, as `afterGap` says. -/
theorem writeGap_eq_ok {ahead : List Item} (h : p.writeGap s ahead = .ok s') :
    ∃ old, Text.slice? p.source s.written (p.gapEnd ahead) = some old ∧
      s' = p.afterGap s s.written old ahead := by
  unfold writeGap at h
  dsimp only at h
  split at h
  · cases h
  · next old hslice =>
    have hgap : Text.slice? p.source s.written (p.gapEnd ahead) = some old := hslice
    refine ⟨old, hgap, (Except.ok.inj h).symm.trans ?_⟩
    obtain ⟨_, _, _, -, hstop⟩ := Text.slice?_eq_some_iff.mp hslice
    rw [hstop, Nat.add_sub_cancel_left]
    rfl

variable {items : List Item}

/-- At a text, `renderFrom` writes the gap before it and the text. -/
theorem renderFrom_cons_text (hkind : i.kind.isText = true)
    (h : p.renderFrom s (i :: items) = .ok s') :
    ∃ old,
      p.renderFrom (p.writeText (p.afterGap s s.written old (i :: items)) i) items = .ok s' := by
  rw [renderFrom, if_pos hkind] at h
  cases hgap : p.writeGap s (i :: items) with
  | error e => rw [hgap] at h; cases h
  | ok s₁ =>
    rw [hgap] at h
    obtain ⟨old, -, rfl⟩ := writeGap_eq_ok hgap
    exact ⟨old, h⟩

theorem renderFrom_cons_mark (hkind : i.kind.isText = false) :
    p.renderFrom s (i :: items) = p.renderFrom (s.addMark i) items := by
  rw [renderFrom, if_neg (by simp [hkind])]

/-- What holds at the start of `renderFrom`, and what `addMark` and a text preserve, holds where the
run comes to an item.  It may speak of the items that are still before that one. -/
theorem renderFrom_append {I : List Item → State → Prop}
    (hmark : ∀ {s i items}, i.kind.isText = false → I (i :: items) s → I items (s.addMark i))
    (htext : ∀ {s i items} old ahead, i.kind.isText = true → I (i :: items) s →
      I items (p.writeText (p.afterGap s s.written old ahead) i))
    {before rest : List Item} (hstart : I before s)
    (h : p.renderFrom s (before ++ rest) = .ok s') :
    ∃ s₁, I [] s₁ ∧ p.renderFrom s₁ rest = .ok s' := by
  induction before generalizing s with
  | nil => exact ⟨s, hstart, h⟩
  | cons i before ih =>
    cases hkind : i.kind.isText with
    | true =>
      obtain ⟨old, h⟩ := renderFrom_cons_text hkind h
      exact ih (htext old _ hkind hstart) h
    | false =>
      rw [cons_append, renderFrom_cons_mark hkind] at h
      exact ih (hmark hkind hstart) h

end Pass

end Render

end CodeLayout
