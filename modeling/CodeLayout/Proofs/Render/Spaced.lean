import CodeLayout.Proofs.Render.Operator

/-!
# Gap by gap

`Spaced source G` goes through the gaps and texts of a source, as they are and as they are written,
with what has been read of each gap, and says that `G` holds of each of them.  A pass over items that
cover a source writes it so, with what it decides for each gap (`Pass.render_gapped`); the rest of
what is said of a run follows gap by gap (`Spaced.imp`).  `Gapped` is the same with the gap behind the
last text.
-/

namespace CodeLayout.Render

open List
open Text (sizeOfChars sizeOfChars_append sizeOfChars_nil sizeOfChars_toList)

/-- Gaps and texts in turn, in a source and as they are written.  Of each gap `g` in front of a text
`G` holds: `g'` is written for it, and `x'` for the text. -/
inductive Spaced (source : String) (G : Between → Item → (g g' x' : List Char) → Prop) :
    Between → List Item → List Char → List Char → Prop
  | last {b : Between} {g g' : List Char} : Regapped g g' → Spaced source G b [] g g'
  | mark {b : Between} {i : Item} {items : List Item} {cs cs' : List Char} :
      i.kind.isText = false → Spaced source G (b.add i) items cs cs' →
      Spaced source G b (i :: items) cs cs'
  | text {b : Between} {i : Item} {items : List Item} {g g' x' cs cs' : List Char} :
      i.kind.isText = true → Regapped g g' → Rewritten i.kind (i.text source).toList x' →
      G b i g g' x' → Spaced source G (b.add i) items cs cs' →
      Spaced source G b (i :: items) (g ++ ((i.text source).toList ++ cs)) (g' ++ (x' ++ cs'))

variable {b : Between} {items : List Item} {i : Item} {a : List Char} {s : State}

/-- What follows gap by gap, from what has been read, follows for `Spaced`. -/
theorem Spaced.imp {source : String} {G H : Between → Item → (g g' x' : List Char) → Prop}
    {cs cs' : List Char} (h : Spaced source G b items cs cs')
    (himp : ∀ before i behind g g' x', items = before ++ i :: behind → i.kind.isText = true →
      Regapped g g' → Rewritten i.kind (i.text source).toList x' →
      G (before.foldl Between.add b) i g g' x' → H (before.foldl Between.add b) i g g' x') :
    Spaced source H b items cs cs' := by
  induction h with
  | last hgap => exact .last hgap
  | @mark b i items cs cs' hkind _ ih =>
    refine .mark hkind (ih fun before j behind g g' x' hitems => ?_)
    exact himp (i :: before) j behind g g' x' (hitems ▸ rfl)
  | @text b i items g g' x' cs cs' hkind hgap htext hG _ ih =>
    refine .text hkind hgap htext (himp [] i items g g' x' rfl hkind hgap htext hG) (ih ?_)
    intro before j behind g g' x' hitems
    exact himp (i :: before) j behind g g' x' (hitems ▸ rfl)

/-- Gaps and texts in turn, down to the gap behind the last text.  `G` holds of each gap and of the
text behind it, if there is one: `g'` is written for the gap `g`. -/
inductive Gapped (source : String) (G : Between → Option Item → (g g' : List Char) → Prop) :
    Between → List Item → List Char → List Char → Prop
  | last {b : Between} {g g' : List Char} : Regapped g g' → G b none g g' →
      Gapped source G b [] g g'
  | mark {b : Between} {i : Item} {items : List Item} {cs cs' : List Char} :
      i.kind.isText = false → Gapped source G (b.add i) items cs cs' →
      Gapped source G b (i :: items) cs cs'
  | text {b : Between} {i : Item} {items : List Item} {g g' x' cs cs' : List Char} :
      i.kind.isText = true → Regapped g g' → Rewritten i.kind (i.text source).toList x' →
      G b (some i) g g' → Gapped source G (b.add i) items cs cs' →
      Gapped source G b (i :: items) (g ++ ((i.text source).toList ++ cs)) (g' ++ (x' ++ cs'))

section

variable {source : String} {G H : Between → Option Item → (g g' : List Char) → Prop}
  {b : Between} {items : List Item} {cs cs' : List Char}

theorem Gapped.imp (h : Gapped source G b items cs cs')
    (himp : ∀ b next g g', Regapped g g' → G b next g g' → H b next g g') :
    Gapped source H b items cs cs' := by
  induction h with
  | last hgap hG => exact .last hgap (himp _ _ _ _ hgap hG)
  | mark hkind _ ih => exact .mark hkind ih
  | text hkind hgap htext hG _ ih => exact .text hkind hgap htext (himp _ _ _ _ hgap hG) ih

theorem Gapped.spaced (h : Gapped source G b items cs cs') :
    Spaced source (fun b i g g' _ => G b (some i) g g') b items cs cs' := by
  induction h with
  | last hgap _ => exact .last hgap
  | mark hkind _ ih => exact .mark hkind ih
  | text hkind hgap htext hG _ ih => exact .text hkind hgap htext hG ih

end

/-! ## What a state has read -/

namespace State

/-- What has been read of the gap. -/
def between (s : State) : Between := ⟨s.prev, s.roles, s.marks.align.isSome⟩

theorem isSome_align_addMark (s : State) (i : Item) :
    (s.addMark i).marks.align.isSome = (s.marks.align.isSome || i.kind.isOperator) := by
  unfold addMark
  cases i.kind with
  | role r =>
    unfold addRole
    dsimp only
    split <;> exact (Bool.or_false _).symm
  | align m => exact (Bool.or_true _).symm
  | _ => exact (Bool.or_false _).symm

theorem between_addMark (s : State) {i : Item} (h : i.kind.isText = false) :
    (s.addMark i).between = s.between.add i := by
  simp [between, Between.add, h, s.roles_addMark h, (s.addMark_spec i).1, s.isSome_align_addMark i]

end State

/-- The characters of a source up to the end of the text before the gap. -/
def EndsAt (b : Between) (a : List Char) : Prop :=
  (b.prev = none → a = []) ∧ ∀ q, b.prev = some q → ∃ as x, a = as ++ x ∧
    q.offset = sizeOfChars as ∧ q.length = sizeOfChars x

theorem EndsAt.init : EndsAt {} [] := ⟨fun _ => rfl, nofun⟩

theorem EndsAt.text (hkind : i.kind.isText = true) {as x : List Char}
    (hoff : i.offset = sizeOfChars as) (hlen : i.length = sizeOfChars x) :
    EndsAt (b.add i) (as ++ x) := by
  rw [b.add_of_isText hkind]
  refine ⟨nofun, fun q hq => ?_⟩
  cases hq
  exact ⟨as, x, rfl, hoff, hlen⟩

theorem EndsAt.mark (h : EndsAt b a) (hkind : i.kind.isText = false) : EndsAt (b.add i) a := by
  have hprev : (b.add i).prev = b.prev := if_neg (by simp [hkind])
  unfold EndsAt
  rwa [hprev]

theorem EndsAt.written (h : EndsAt s.between a) : s.written = sizeOfChars a := by
  unfold State.written
  split
  · next q hq =>
    obtain ⟨as, x, rfl, hoff, hlen⟩ := h.2 q hq
    rw [Item.stop, hoff, hlen, sizeOfChars_append]
  · next hq => rw [h.1 hq, sizeOfChars_nil]

namespace Pass

variable {p : Pass} {s : State} {i : Item} {items : List Item} {a g cs : List Char}

/-! ## What a pass decides -/

/-- The gap and the text behind it stand at their places in the source, and the pass decides from
what has been read what is written for the gap. -/
structure Decides (p : Pass) (b : Between) (i : Item) (g g' : List Char) : Prop where
  place : ∃ a cs, EndsAt b a ∧ p.source.toList = a ++ g ++ ((i.text p.source).toList ++ cs) ∧
    i.offset = sizeOfChars (a ++ g) ∧ i.length = sizeOfChars (i.text p.source).toList
  nonempty : (i.text p.source).toList ≠ []
  gap : ∃ s ahead, s.between = b ∧ g' = (p.gapText s.marks.align (String.ofList g)
    (gapBetween (p.view s (String.ofList g) (i :: ahead)) s.marks.roles (s.prev.map Item.kind)
      i.kind)).toList

/-- What the pass decides for a gap in front of a text, or behind the last one. -/
def Settles (p : Pass) (b : Between) : Option Item → (g g' : List Char) → Prop
  | some i, g, g' => p.Decides b i g g'
  | none, g, g' => ∃ s : State, s.between = b ∧ g' = (p.gapText s.marks.align (String.ofList g)
      (lastGap p.style (s.prev.map Item.kind) (String.ofList g))).toList

/-- The `Edges` of the texts around a gap that a pass `Decides`. -/
theorem Decides.edges {b : Between} {g' : List Char} (h : p.Decides b i g g')
    (hfirm : ∀ j, j = i ∨ b.prev = some j → j.kind.isText = true ∧ j.Firm p.source) :
    ∃ a cs, EndsAt b a ∧ Edges i.kind (a ++ g) (i.text p.source).toList cs ∧
      ∀ q, b.prev = some q → ∃ as x, Edges q.kind as x (g ++ ((i.text p.source).toList ++ cs)) := by
  obtain ⟨a, cs, hends, hsource, hoff, hlen⟩ := h.place
  obtain ⟨hkind, hi⟩ := hfirm i (.inl rfl)
  refine ⟨a, cs, hends, ?_, fun q hq => ?_⟩
  · exact hi.edges hkind _ _ _ (by rw [hsource, append_assoc (a ++ g)]) hoff hlen
  · obtain ⟨hkind, hfirm⟩ := hfirm q (.inr hq)
    obtain ⟨as, x, rfl, hoff, hlen⟩ := hends.2 q hq
    exact ⟨as, x, hfirm.edges hkind _ _ _ (by rw [hsource]; simp) hoff hlen⟩

theorem between_writeText (hkind : i.kind.isText = true) (start : Nat) (old : String)
    (ahead : List Item) :
    (p.writeText (p.afterGap s start old ahead) i).between = s.between.add i := by
  rw [s.between.add_of_isText hkind, State.between, prev_writeText, State.roles, marks_writeText]
  rfl

/-- From the state on, the pass writes the items, gap by gap. -/
def Spaces (p : Pass) (s : State) (items : List Item) (cs : List Char) : Prop :=
  ∃ s' out, p.renderFrom s items = .ok s' ∧ s'.output = s.output ++ out ∧
    Gapped p.source p.Settles s.between items cs out

theorem spaces_nil (hsource : p.source.toList = a ++ g) (hg : ∀ c ∈ g, Lexeme.isBlank c = true)
    (hends : EndsAt s.between a) : p.Spaces s [] g := by
  have hend : p.gapEnd [] = sizeOfChars a + sizeOfChars g := by
    rw [gapEnd, ← sizeOfChars_toList, hsource, sizeOfChars_append]
  have hwrite := p.writeGap_eq (by rw [hsource, append_nil]) hends.written hend
  refine ⟨_, (p.gapPiece s (sizeOfChars a) (String.ofList g) []).new.toList, hwrite, ?_,
    .last (p.regapped_gapText hg s.marks.align _) ⟨s, rfl, rfl⟩⟩
  rw [State.output, pieces_afterGap, Array.toList_push, flatMap_append,
    flatMap_singleton, State.output]

theorem Spaces.mark (hkind : i.kind.isText = false) (h : p.Spaces (s.addMark i) items cs) :
    p.Spaces s (i :: items) cs := by
  obtain ⟨s', out, hrun, hout, hspaced⟩ := h
  rw [s.output_addMark] at hout
  rw [s.between_addMark hkind] at hspaced
  exact ⟨s', out, (renderFrom_cons_mark hkind).trans hrun, hout, .mark hkind hspaced⟩

/-- `Spaces` at a text, behind a gap that has been read. -/
theorem Spaces.text (hmoves : p.movesVerbatim = false) {x : List Char} (hne : x ≠ [])
    (hsource : p.source.toList = a ++ g ++ (x ++ cs)) (hg : ∀ c ∈ g, Lexeme.isBlank c = true)
    (hends : EndsAt s.between a) (hkind : i.kind.isText = true)
    (hoff : i.offset = sizeOfChars (a ++ g)) (hlen : i.length = sizeOfChars x)
    (h : ∀ s', EndsAt s'.between (a ++ g ++ x) → p.Spaces s' items cs) :
    p.Spaces s (i :: items) (g ++ (x ++ cs)) := by
  have htext : (i.text p.source).toList = x := by
    have hslice := Text.slice_of_toList (hsource.trans (append_assoc _ _ _).symm)
    rw [Item.text, Item.stop, hoff, hlen, hslice, String.toList_ofList]
  generalize hgap : p.afterGap s (sizeOfChars a) (String.ofList g) (i :: items) = s₁
  have hbetween : (p.writeText s₁ i).between = s.between.add i := hgap ▸ between_writeText hkind ..
  have hwrite : p.writeGap s (i :: items) = .ok s₁ := by
    rw [← hgap]
    exact p.writeGap_eq hsource hends.written (by rw [gapEnd, hoff, sizeOfChars_append])
  obtain ⟨s', out, hrun, hout, hspaced⟩ := h (p.writeText s₁ i)
    (hbetween ▸ EndsAt.text hkind hoff hlen)
  rw [hbetween] at hspaced
  refine ⟨s', (p.gapText s.marks.align (String.ofList g)
    (p.gapBefore s (String.ofList g) (i :: items))).toList ++ ((p.itemText s₁ i).toList ++ out),
    ?_, ?_, ?_⟩
  · rw [renderFrom, if_pos hkind, hwrite]
    exact hrun
  · rw [hout, State.output, pieces_writeText, ← hgap, pieces_afterGap, State.output]
    simp [gapPiece, textPiece]
  · have hdecides : p.Decides s.between i g _ :=
      ⟨⟨a, cs, hends, by rw [htext, hsource], hoff, by rw [htext, hlen]⟩, by rwa [htext],
        s, items, rfl, rfl⟩
    rw [← htext]
    exact .text hkind (p.regapped_gapText hg s.marks.align _)
      (p.rewritten_itemText hmoves s₁ i) hdecides hspaced

/-- A pass `Spaces` items that cover the rest of a source, behind a gap that has been read. -/
theorem spaces_of_covers (hmoves : p.movesVerbatim = false)
    (hsource : p.source.toList = a ++ g ++ cs) (hg : ∀ c ∈ g, Lexeme.isBlank c = true)
    (hends : EndsAt s.between a) (hcovers : Covers (sizeOfChars (a ++ g)) items cs) :
    p.Spaces s items (g ++ cs) := by
  induction items generalizing s a g cs with
  | nil =>
    cases hcovers
    rw [append_nil] at hsource ⊢
    exact spaces_nil hsource hg hends
  | cons i items ih =>
    have hmarked (hkind : i.kind.isText = false) : EndsAt (s.addMark i).between a := by
      rw [s.between_addMark hkind]
      exact hends.mark hkind
    cases hcovers with
    | mark hkind _ hrest =>
      simp only [ItemKind.isMark, Bool.and_eq_true, Bool.not_eq_true'] at hkind
      exact .mark hkind.1 (ih hsource hg (hmarked hkind.1) hrest)
    | @piece _ _ _ x cs hfits hoff hlen hrest =>
      rw [← sizeOfChars_append] at hrest
      rcases hfits.2 with htext | ⟨hkind, hblank⟩
      · refine .text hmoves hfits.1 hsource hg hends htext hoff hlen fun s' hs' => ?_
        rw [← append_assoc] at hsource
        exact ih (g := []) (by rw [hsource, append_nil]) (forall_mem_nil _) hs'
          (by rwa [append_nil])
      · -- blanks are part of the gap
        have hnot : i.kind.isText = false := by
          rcases ItemKind.isBlank_eq_true_iff.mp hkind with h | h <;> rw [h] <;> rfl
        rw [← append_assoc] at hsource ⊢
        rw [append_assoc] at hrest
        refine .mark hnot (ih (by rw [hsource]; simp) ?_ (hmarked hnot) hrest)
        intro c hc
        rcases mem_append.mp hc with hc | hc
        · exact hg c hc
        · exact hblank c hc

end Pass

/-- `render` of items that cover a source is `Gapped`, unless the pass moves texts with syntax
problems. -/
theorem Pass.render_gapped {p : Pass} (hmoves : p.movesVerbatim = false)
    (hcovers : Covers 0 items p.source.toList) (hrun : p.render items = .ok s) :
    Gapped p.source p.Settles {} items p.source.toList s.output := by
  obtain ⟨s', out, hrun', hout, hgapped⟩ := spaces_of_covers (s := { base := _ }) (a := []) (g := [])
    hmoves rfl nofun EndsAt.init hcovers
  cases hrun.symm.trans hrun'
  rw [hout]
  exact hgapped

end CodeLayout.Render
