import CodeLayout.Proofs.Render.Change

/-!
# Pieces in a range

Edits are kept if they start in a range.  Every piece has one edit at most, so keeping some of the
edits is the same as letting the other pieces stay as they were (`finish_eq_ofPieces`).  What holds
of any pieces that are laid out holds of those too: a source comes back from its edits in a range
exactly if there are none (`Laid.finish_eq_nil_iff`).
-/

namespace CodeLayout

open List

namespace Render

/-- The small edit of a piece. -/
def Piece.small? (source : String) (p : Piece) : Option Edit := p.edit?.bind (Edit.minimize? source)

/-- The piece, or what stood there before if its edit does not pass the test. -/
def Piece.restrict (source : String) (test : Edit → Bool) (p : Piece) : Piece :=
  if (p.small? source).all test then p else { p with new := p.old }

section Restrict

variable (source : String) (test : Edit → Bool) (p : Piece)

@[simp] theorem Piece.restrict_offset : (p.restrict source test).offset = p.offset := by
  unfold restrict
  split <;> rfl

@[simp] theorem Piece.restrict_length : (p.restrict source test).length = p.length := by
  unfold restrict
  split <;> rfl

@[simp] theorem Piece.restrict_old : (p.restrict source test).old = p.old := by
  unfold restrict
  split <;> rfl

theorem Piece.restrict_new : (p.restrict source test).new = p.new ∨
    (p.restrict source test).new = p.old := by
  unfold restrict
  split
  · exact .inl rfl
  · exact .inr rfl

theorem Piece.small?_eq_none {source : String} {p : Piece} (h : p.new = p.old) :
    p.small? source = none := by
  rw [small?, edit?, if_pos (by simpa using h)]
  rfl

theorem Piece.restrict_eq_self {source : String} {test : Edit → Bool} {p : Piece}
    (h : ∀ e, p.small? source = some e → test e = true) : p.restrict source test = p := by
  rw [restrict, if_pos]
  rw [Option.all_eq_true]
  exact h

variable {e : Edit} {a cs : List Char}

theorem Piece.new_ne_old {source : String} {p : Piece} (h : p.small? source = some e) :
    p.new ≠ p.old := by
  intro hnew
  rw [small?_eq_none hnew] at h
  cases h

/-- `small?` of a piece that changes starts behind the `commonStart` of its texts. -/
theorem Piece.small?_spec {source : String} {p : Piece} (hnew : p.new ≠ p.old)
    (hoffset : p.offset = Text.sizeOfChars a) (hlength : p.length = Text.size p.old)
    (hsource : source.toList = a ++ p.old.toList ++ cs) :
    ∃ e front mid mid' back, p.small? source = some e ∧
      e.offset = Text.sizeOfChars (a ++ front) ∧ p.old.toList = front ++ mid ++ back ∧
      p.new.toList = front ++ mid' ++ back := by
  have hedit : p.edit? = some ⟨p.offset, p.length, p.new⟩ := by
    rw [edit?, if_neg (by simpa using hnew)]
  have hold : Edit.old? ⟨p.offset, p.length, p.new⟩ source = some p.old := by
    have hslice := Text.slice?_of_toList hsource
    rw [Text.sizeOfChars_toList, String.ofList_toList] at hslice
    rw [Edit.old?, Edit.stop, hoffset, hlength]
    exact hslice
  rw [small?, hedit, Option.bind_some]
  rcases Edit.minimize?_spec hold with ⟨-, heq⟩ | ⟨front, mid, mid', back, hmid, hmid', hmin, -⟩
  · exact absurd heq hnew
  · refine ⟨_, front, mid, mid', back, hmin, ?_, hmid, hmid'⟩
    rw [Text.sizeOfChars_append, ← hoffset]

/-- If `small?` starts at the end of its piece, the new text goes on where the old one ends. -/
theorem Piece.lt_or_append {source : String} {p : Piece} (h : p.small? source = some e)
    (hoffset : p.offset = Text.sizeOfChars a) (hlength : p.length = Text.size p.old)
    (hsource : source.toList = a ++ p.old.toList ++ cs) :
    e.offset < Text.sizeOfChars (a ++ p.old.toList) ∨
      e.offset = Text.sizeOfChars (a ++ p.old.toList) ∧ p.old.toList <+: p.new.toList := by
  obtain ⟨e', front, mid, mid', back, he', hoff, hold, hnew⟩ :=
    small?_spec (new_ne_old h) hoffset hlength hsource
  cases h.symm.trans he'
  rw [hoff, hold, hnew]
  -- the edit starts behind the common front; is that all of the old text?
  cases hrest : mid ++ back with
  | nil =>
    obtain ⟨rfl, rfl⟩ := append_eq_nil_iff.mp hrest
    simp
  | cons c rest =>
    refine .inl ?_
    have hpos : 0 < Text.sizeOfChars (mid ++ back) := Text.sizeOfChars_pos (by simp [hrest])
    simp only [Text.sizeOfChars_append] at hpos ⊢
    omega

/-- The edits that pass the test are those of the pieces after `restrict`. -/
theorem Piece.small?_restrict :
    (p.restrict source test).small? source = (p.small? source).filter test := by
  unfold restrict
  cases hsmall : p.small? source with
  | none =>
    rw [if_pos (show Option.all test none = true from rfl), hsmall]
    rfl
  | some e =>
    cases htest : test e with
    | true => rw [if_pos (by simpa using htest), hsmall, Option.filter_some_pos htest]
    | false =>
      rw [if_neg (by simpa using htest), Option.filter_some_neg (by simp [htest])]
      exact small?_eq_none rfl

end Restrict

/-- Pieces stay `Laid` under `restrict`. -/
theorem Laid.restrict {source : String} {items : List Item} {ps : List Piece}
    (h : Laid source items ps) (test : Edit → Bool) :
    Laid source items (ps.map (Piece.restrict source test)) := by
  have hgap {p : Piece} (hp : Regapped p.old.toList p.new.toList) :
      Regapped (p.restrict source test).old.toList (p.restrict source test).new.toList := by
    rw [Piece.restrict_old]
    rcases p.restrict_new source test with hnew | hnew
    · rwa [hnew]
    · rw [hnew]
      exact ⟨hp.blank, .inl rfl⟩
  induction h with
  | last hp => exact .last (hgap hp)
  | @text i items p q ps hp hoffset hlength hold hne htext _ ih =>
    refine .text (hgap hp) ?_ ?_ ?_ ?_ ?_ ih
    · rwa [Piece.restrict_offset]
    · rwa [Piece.restrict_length]
    · rwa [Piece.restrict_old]
    · rwa [Piece.restrict_old]
    · rw [Piece.restrict_old]
      rcases q.restrict_new source test with hnew | hnew
      · rwa [hnew]
      · rw [hnew]
        exact .inl rfl

theorem Piece.flatMap_old_restrict (source : String) (test : Edit → Bool) (ps : List Piece) :
    (ps.map (restrict source test)).flatMap (·.old.toList) = ps.flatMap (·.old.toList) := by
  simp [flatMap_map]

end Render

namespace Edit

open Render (Piece)

theorem ofPieces_eq_filterMap (source : String) (ps : List Piece) :
    ofPieces source ps = ps.filterMap (Piece.small? source) := by
  rw [ofPieces, filterMap_filterMap]
  rfl

variable {ps : List Piece}

theorem Placed.restrict {n : Nat} (h : Placed n ps) (source : String) (test : Edit → Bool) :
    Placed n (ps.map (Piece.restrict source test)) := by
  induction ps generalizing n with
  | nil => trivial
  | cons p ps ih =>
    obtain ⟨hoffset, hlength, hps⟩ := h
    refine ⟨by rwa [Piece.restrict_offset], ?_, ?_⟩
    · rwa [Piece.restrict_length, Piece.restrict_old]
    · rw [Piece.restrict_old]
      exact ih hps

/-- `finish` answers `ofPieces` of the pieces that are changed in the range. -/
theorem finish_eq_ofPieces (source : String) (range : Option Span) (ps : List Piece) :
    finish source range none (ps.filterMap Piece.edit?) =
      ofPieces source (ps.map (Piece.restrict source fun e => range.all (·.contains e.offset))) := by
  have hfinish : finish source range none (ps.filterMap Piece.edit?) =
      (ofPieces source ps).filter fun e => range.all (·.contains e.offset) := by
    simp [finish, ofPieces]
  rw [hfinish, ofPieces_eq_filterMap, ofPieces_eq_filterMap, filterMap_map,
    filter_filterMap]
  exact filterMap_congr fun p _ => (p.small?_restrict source _).symm

/-- `apply` of the edits in a range makes the new texts of the pieces after `restrict`. -/
theorem apply_finish_range {source : String} (hplaced : Placed 0 ps)
    (hsource : source.toList = ps.flatMap (·.old.toList)) (range : Option Span) :
    apply source (finish source range none (ps.filterMap Piece.edit?)) =
      .ok (String.ofList ((ps.map (Piece.restrict source fun e =>
        range.all (·.contains e.offset))).flatMap (·.new.toList))) := by
  rw [finish_eq_ofPieces]
  generalize (fun e : Edit => range.all (·.contains e.offset)) = test
  have happly := apply_finish (hplaced.restrict source test)
    (by rw [Piece.flatMap_old_restrict]; exact hsource)
  simpa [finish, ofPieces] using happly

theorem apply_nil (source : String) : apply source [] = .ok source := by
  rw [apply, show sorted [] = [] by simp [sorted], applyFrom]
  rw [show Text.after source 0 = source by simp]

end Edit

/-- A source that is `Laid` comes back from the edits in a range exactly if `finish` answers none.
-/
theorem Render.Laid.finish_eq_nil_iff {source : String} {items : List Item} {ps : List Piece}
    (h : Laid source items ps) (hfirm : ∀ i ∈ items, i.kind.isText = true ∧ i.Firm source)
    (hplaced : Edit.Placed 0 ps) (hsource : source.toList = ps.flatMap (·.old.toList))
    (range : Option Span) :
    ∃ t, Edit.apply source (Edit.finish source range none (ps.filterMap Piece.edit?)) = .ok t ∧
      (Edit.finish source range none (ps.filterMap Piece.edit?) = [] ↔ t = source) := by
  refine ⟨_, Edit.apply_finish_range hplaced hsource range, fun hnil => ?_, fun hsame => ?_⟩
  · have happly := Edit.apply_finish_range hplaced hsource range
    rw [hnil, Edit.apply_nil] at happly
    exact (Except.ok.inj happly).symm
  · -- the restricted pieces are together the source, so that each of them has stayed
    have hunchanged := (h.restrict fun e => range.all (·.contains e.offset)).unchanged (a := [])
      hfirm (hplaced.restrict source _) (by rw [Piece.flatMap_old_restrict]; exact hsource)
      (by simpa [Piece.flatMap_old_restrict, ← hsource] using congrArg String.toList hsame)
    rw [Edit.finish_eq_ofPieces, Edit.ofPieces_eq_filterMap, filterMap_eq_nil_iff]
    exact fun p hp => Piece.small?_eq_none (hunchanged p hp)

end CodeLayout
