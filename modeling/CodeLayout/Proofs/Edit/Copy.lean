import CodeLayout.Proofs.Edit.Rewrite

/-!
# What edits leave alone

`Copies as ts es cs ds` says that the edits `es` make `ds` out of the characters `cs`, which stand
behind `as`, and that none of them touches the tokens `ts`: those are found in `ds` again, one behind
the other, with the edits of what stands between them.  Edits one behind the other leave tokens alone
that each of them misses (`Within.copies`).
-/

namespace CodeLayout.Edit

open List

/-- The edit replaces nothing between the offsets, and puts nothing there. -/
def Misses (e : Edit) (start stop : Nat) : Prop := e.stop ≤ start ∨ stop ≤ e.offset

/-- Behind the characters `as`, the edits make `ds` out of `cs`, with the tokens as they were. -/
inductive Copies : (as : List Char) → List Token → List Edit → (cs ds : List Char) → Prop
  | rest {a cs ds : List Char} {es : List Edit} : Rewrites a cs es ds → Copies a [] es cs ds
  | token {a g g' cs ds : List Char} {es es' : List Edit} {t : Token} {ts : List Token}
      (x : List Char) : Rewrites a g es g' → t.start = Text.sizeOfChars (a ++ g) →
      t.length = Text.sizeOfChars x → Copies (a ++ g ++ x) ts es' cs ds →
      Copies a (t :: ts) (es ++ es') (g ++ (x ++ cs)) (g' ++ (x ++ ds))

namespace Rewrites

variable {a g g' cs ds : List Char} {es es' : List Edit}

/-- `Rewrites` of a stretch and of what stands behind it. -/
theorem append (h : Rewrites a g es g') (h' : Rewrites (a ++ g) cs es' ds) :
    Rewrites a (g ++ cs) (es ++ es') (g' ++ ds) := by
  induction h with
  | nil => exact h'.keep
  | @edit a cs' ds' es kept old new _ ih =>
    have hrest := ih (by simpa only [append_assoc] using h')
    have hedit := Rewrites.edit kept old new hrest
    simpa only [append_assoc, cons_append] using hedit

/-- `Rewrites` keeps what stands behind the last edit. -/
theorem cut (h : Rewrites a (g ++ cs) es ds) (hbelow : ∀ e ∈ es, e.stop ≤ Text.sizeOfChars (a ++ g)) :
    ∃ g', ds = g' ++ cs ∧ Rewrites a g es g' := by
  generalize hall : g ++ cs = all at h
  induction h generalizing g with
  | nil => exact ⟨g, hall.symm, .nil⟩
  | @edit a rest ds es kept old new _ ih =>
    obtain ⟨hfirst, hbelow⟩ := forall_mem_cons.mp hbelow
    -- the stretch goes on behind the first edit
    have hsize : Text.sizeOfChars (kept ++ old) ≤ Text.sizeOfChars g := by
      simp only [Edit.stop, Text.sizeOfChars_append] at hfirst ⊢
      omega
    obtain ⟨g, rfl, rfl⟩ := Text.append_split_of_size_le hall.symm hsize
    obtain ⟨g', rfl, hrest⟩ := ih (g := g)
      (by simpa only [append_assoc] using hbelow) rfl
    refine ⟨kept ++ new ++ g', by simp only [append_assoc], ?_⟩
    exact .edit kept old new hrest

end Rewrites

variable {es : List Edit}

/-- `Copies` is a case of `Rewrites`, whatever the tokens are. -/
theorem Copies.rewrites {a cs ds : List Char} {ts : List Token} (h : Copies a ts es cs ds) :
    Rewrites a cs es ds := by
  induction h with
  | rest h => exact h
  | token x h _ _ _ ih => exact h.append ih.keep

section Within

variable {source : String} {lo hi : Nat} {es : List Edit}

/-- Edits each of which `Misses` a stretch stand before it or behind it. -/
theorem Within.split_of_misses (h : Within source lo hi es) {start stop : Nat}
    (hmiss : ∀ e ∈ es, e.Misses start stop) :
    ∃ left right, es = left ++ right ∧ Within source lo start left ∧ Within source stop hi right := by
  induction es generalizing lo with
  | nil => exact ⟨[], [], rfl, .nil source _ _, .nil source _ _⟩
  | cons e es ih =>
    obtain ⟨he, hes⟩ := forall_mem_cons.mp hmiss
    obtain ⟨hslice, hslices⟩ := forall_mem_cons.mp h.slices
    obtain ⟨hbehind, hordered⟩ := pairwise_cons.mp h.ordered
    have habove := h.above e mem_cons_self
    rcases he with hbefore | hafter
    · obtain ⟨left, right, rfl, hleft, hright⟩ :=
        ih ⟨hslices, hbehind, (forall_mem_cons.mp h.below).2, hordered⟩ hes
      have hlo : lo ≤ e.stop := habove.trans (Nat.le_add_right _ _)
      refine ⟨e :: left, right, rfl, ⟨?_, ?_, ?_, ?_⟩, hright⟩
      · exact forall_mem_cons.mpr ⟨hslice, hleft.slices⟩
      · exact forall_mem_cons.mpr ⟨habove, (hleft.mono hlo le_rfl).above⟩
      · exact forall_mem_cons.mpr ⟨hbefore, hleft.below⟩
      · exact pairwise_cons.mpr ⟨hleft.above, hleft.ordered⟩
    · -- whatever follows an edit behind the stretch is behind it too
      refine ⟨[], e :: es, rfl, .nil source _ _, h.slices, ?_, h.below, h.ordered⟩
      refine forall_mem_cons.mpr ⟨hafter, fun d hd => ?_⟩
      exact hafter.trans ((Nat.le_add_right _ _).trans (hbehind d hd))

/-- Edits `Within` a source are `Copies` of the tokens that they miss. -/
theorem Within.copies {a c : List Char} {ts : List Token}
    (h : Within source (Text.sizeOfChars a) hi es) (hsource : source.toList = a ++ c)
    (habove : ∀ t ∈ ts, Text.sizeOfChars a ≤ t.start)
    (hordered : ts.Pairwise fun t u => t.stop ≤ u.start)
    (hslices : ∀ t ∈ ts, (Text.slice? source t.start t.stop).isSome = true)
    (hmiss : ∀ e ∈ es, ∀ t ∈ ts, e.Misses t.start t.stop) : ∃ ds, Copies a ts es c ds := by
  induction ts generalizing a c es with
  | nil =>
    obtain ⟨ds, hds⟩ := h.rewrites hsource
    exact ⟨ds, .rest hds⟩
  | cons t ts ih =>
    obtain ⟨ht, habove⟩ := forall_mem_cons.mp habove
    obtain ⟨hbehind, hordered⟩ := pairwise_cons.mp hordered
    obtain ⟨hslice, hslices⟩ := forall_mem_cons.mp hslices
    obtain ⟨before, x, cs, hcut, hstart, hstop⟩ := Text.exists_toList_of_slice? hslice
    rw [hstart] at ht
    rw [append_assoc] at hcut
    obtain ⟨g, rfl, rfl⟩ := Text.append_split_of_size_le (hsource.symm.trans hcut) ht
    obtain ⟨left, right, rfl, hleft, hright⟩ :=
      h.split_of_misses fun e he => hmiss e he t mem_cons_self
    -- the edits before the token make something of what stands before it
    obtain ⟨ds, hds⟩ := hleft.rewrites hsource
    obtain ⟨g', -, hg'⟩ := hds.cut fun e he => hstart ▸ hleft.below e he
    rw [hstop] at hright hbehind
    obtain ⟨ds, hrest⟩ := ih hright (by rw [hcut, append_assoc (a ++ g)]) hbehind hordered
      hslices fun e he u hu => hmiss e (mem_append_right _ he) u (mem_cons_of_mem _ hu)
    refine ⟨g' ++ (x ++ ds), .token x hg' hstart ?_ hrest⟩
    rw [Token.stop, hstart, Text.sizeOfChars_append (a ++ g)] at hstop
    omega

end Within

/-- Every edit of `finish` is a part of one that was there. -/
theorem mem_finish {source : String} {lo hi : Nat} (h : Within source lo hi es)
    {range : Option Span} {e : Edit} (he : e ∈ finish source range none es) :
    ∃ d ∈ es, d.offset ≤ e.offset ∧ e.stop ≤ d.stop := by
  simp only [finish, flatMap_singleton', mem_filter, mem_filterMap] at he
  obtain ⟨⟨d, hd, hsmall⟩, -⟩ := he
  have hwithin := within_minimize? (h.slices d hd)
  rw [hsmall, Option.toList_some] at hwithin
  exact ⟨d, hd, hwithin.above e mem_cons_self, hwithin.below e mem_cons_self⟩

end CodeLayout.Edit
