import CodeLayout.Proofs.Render.Relaid

/-!
# Changes that show

A source is laid out piece by piece, and what is taken away at one place might come back at the
next.  It does not: if the new texts of the pieces are together the source again, then every piece
has stayed as it was (`Laid.unchanged`).  Going from left to right, the first piece that changes can
be told from what follows it.

* A gap in front of a text ends where the first character comes that is no blank, and that is the
  first one of the text.
* A comment whose stars have moved has the same characters apart from blanks, and does not end with
  one.
* Markup may be nothing but blanks, but there is no gap around it in the source, so that any blanks
  in front of it would be too many.
-/

namespace CodeLayout

open List
open Lexeme (isBlank)

open Text (Bare)

/-! ## Blanks at the ends -/

variable {cs bs ds : List Char}

/-- There are no blanks at the end of characters whose reverse is `Bare`. -/
theorem Text.Bare.eq_nil_of_reverse (h : Bare (cs ++ bs).reverse)
    (hbs : ∀ c ∈ bs, isBlank c = true) : bs = [] := by
  rcases eq_nil_or_concat bs with rfl | ⟨bs, b, rfl⟩
  · rfl
  · have hb : isBlank b = false := h b (by simp)
    rw [hbs b (by simp)] at hb
    cases hb

/-- The blanks that characters start with end at the latest before what is `Bare`. -/
theorem Text.Bare.takeWhile_append_eq (hds : Bare ds) :
    (cs ++ ds).takeWhile isBlank = cs.takeWhile isBlank := by
  induction cs with
  | nil => exact takeWhile_append (forall_mem_nil _) hds
  | cons c cs ih => rw [cons_append, takeWhile_cons, takeWhile_cons, ih]

/-- No blanks can be put in front of characters so that they stay what they were, whatever follows
them, unless blanks followed them before. -/
theorem Text.Bare.eq_nil_of_append {es : List Char} (hds : Bare ds)
    (hbs : ∀ c ∈ bs, isBlank c = true) (h : bs ++ (cs ++ es) = cs ++ ds) : bs = [] := by
  have hblanks := congrArg (fun l => (l.takeWhile isBlank).length) h
  rw [hds.takeWhile_append_eq, takeWhile_append_of_pos hbs, List.length_append] at hblanks
  have hle : (cs.takeWhile isBlank).length ≤ ((cs ++ es).takeWhile isBlank).length := by
    rw [List.takeWhile_append]
    split
    · rw [List.length_append]
      omega
    · exact Nat.le_refl _
  exact eq_nil_of_length_eq_zero (by omega)

namespace Render

/-! ## Gaps and texts -/

/-- What is written for a gap by `Regapped` is blank. -/
theorem Regapped.blank_new {g g' : List Char} (h : Regapped g g') : ∀ c ∈ g', isBlank c = true := by
  rcases h.kept_or_blank with rfl | hnew
  · exact h.blank
  · intro c hc
    rcases hnew c hc with rfl | rfl | rfl <;> decide

variable {cs ds x x' : List Char} {kind : ItemKind}

theorem Restarred.head?_eq (h : Restarred cs ds) : ds.head? = cs.head? := by
  cases h <;> rfl

theorem Restarred.getLast?_eq (h : Restarred cs ds) : ds.getLast? = cs.getLast? := by
  induction h with
  | nil => rfl
  | cons c _ ih => rw [getLast?_cons, getLast?_cons, ih]
  | @star bs bs' cs ds _ _ _ ih =>
    have hstar (bs es : List Char) :
        ('\n' :: (bs ++ '*' :: es)).getLast? = some (es.getLast?.getD '*') := by
      rw [← cons_append, getLast?_append, getLast?_cons]
      rfl
    rw [hstar, hstar, ih]

/-- By `Rewritten`, a text and what is written for it start alike. -/
theorem Rewritten.head?_eq (h : Rewritten kind x x') : x'.head? = x.head? := by
  rcases h with rfl | ⟨-, h⟩
  · rfl
  · exact h.head?_eq

/-- By `Rewritten`, what is written for a text can be told from what follows. -/
theorem Rewritten.eq_of_append {ds' : List Char} (h : Rewritten kind x x')
    (hlast : kind = .blockComment ∨ kind = .docComment → Bare x.reverse)
    (heq : x' ++ ds' = x ++ ds) : x' = x := by
  have hfilter : x.filter (fun c => !isBlank c) = x'.filter (fun c => !isBlank c) :=
    h.filter_eq (by simp)
  rcases h with rfl | ⟨hkind, hstars⟩
  · rfl
  -- the longer one of the two goes on with blanks only, but does not end with one
  have hbare := hlast hkind
  have hbare' : Bare x'.reverse := by
    intro c hc
    rw [head?_reverse, hstars.getLast?_eq, ← head?_reverse] at hc
    exact hbare c hc
  have hblank {m : List Char} (hm : m.filter (fun c => !isBlank c) = []) :
      ∀ c ∈ m, isBlank c = true := by
    intro c hc
    simpa using filter_eq_nil_iff.mp hm c hc
  rcases append_eq_append_iff.mp heq with ⟨m, rfl, -⟩ | ⟨m, rfl, -⟩
  · rw [filter_append, append_right_eq_self] at hfilter
    rw [hbare.eq_nil_of_reverse (hblank hfilter), append_nil]
  · rw [filter_append, self_eq_append_right] at hfilter
    rw [hbare'.eq_nil_of_reverse (hblank hfilter), append_nil]

/-! ## Pieces -/

section Laid

variable {source : String} {items : List Item} {ps : List Piece} {a : List Char}

variable {p q : Piece}

/-- The `Edges` of a text that is `Firm`, behind a gap. -/
theorem edges_of_firm {i : Item} (hfirm : i.Firm source) (hkind : i.kind.isText = true)
    (hoffset : q.offset = i.offset) (hlength : q.length = i.length)
    (hplaced : Edit.Placed (Text.sizeOfChars a) (p :: q :: ps))
    (hsource : source.toList = a ++ (p :: q :: ps).flatMap (·.old.toList)) :
    Edges i.kind (a ++ p.old.toList) q.old.toList (ps.flatMap (·.old.toList)) := by
  obtain ⟨-, -, hoffset', hlength', -⟩ := hplaced
  refine hfirm.edges hkind _ _ _ ?_ ?_ ?_
  · simpa using hsource
  · rw [← hoffset, hoffset', Text.sizeOfChars_append, Text.sizeOfChars_toList]
  · rw [← hlength, hlength', Text.sizeOfChars_toList]

/-- A gap that is `Regapped` and a text that is `Rewritten` have stayed if what they start has. -/
theorem unchanged_text {kind : ItemKind} {cs ds : List Char}
    (hgap : Regapped p.old.toList p.new.toList) (hne : q.old ≠ "")
    (htext : Rewritten kind q.old.toList q.new.toList)
    (hedges : Edges kind (a ++ p.old.toList) q.old.toList cs)
    (heq : p.new.toList ++ (q.new.toList ++ ds) = p.old.toList ++ (q.old.toList ++ cs)) :
    p.new = p.old ∧ q.new = q.old ∧ ds = cs := by
  have hgaps : p.new.toList = p.old.toList := by
    by_cases hhtml : kind = .html
    · -- there is no gap around markup
      obtain ⟨hbefore, hbehind⟩ := hedges.around hhtml
      have hold := hbefore.eq_nil_of_reverse hgap.blank
      have hnew : q.new.toList = q.old.toList := by
        rcases htext with hnew | ⟨hkind, -⟩
        · exact hnew
        · exact absurd hkind (by simp [hhtml])
      rw [hold, hnew, nil_append] at heq
      rw [hold, hbehind.eq_nil_of_append hgap.blank_new heq]
    · -- the text starts where the first character comes that is no blank
      have hbare := hedges.head hhtml
      have hbare' : Bare q.new.toList := fun c hc => hbare c (htext.head?_eq ▸ hc)
      have hne' : q.old.toList ≠ [] := by simpa using hne
      have hnew : q.new.toList ≠ [] := by
        intro hnil
        have hhead := htext.head?_eq
        rw [hnil, head?_nil] at hhead
        exact hne' (head?_eq_none_iff.mp hhead.symm)
      have hblanks := congrArg (List.takeWhile isBlank) heq
      rwa [(hbare'.append hnew).takeWhile_append hgap.blank_new,
        (hbare.append hne').takeWhile_append hgap.blank] at hblanks
  rw [hgaps, append_cancel_left_eq] at heq
  have htexts := htext.eq_of_append hedges.last heq
  rw [htexts, append_cancel_left_eq] at heq
  exact ⟨String.toList_inj.mp hgaps, String.toList_inj.mp htexts, heq⟩

/-- If all pieces of a `Laid` source together have stayed, each of them has. -/
theorem Laid.unchanged (h : Laid source items ps)
    (hfirm : ∀ i ∈ items, i.kind.isText = true ∧ i.Firm source)
    (hplaced : Edit.Placed (Text.sizeOfChars a) ps)
    (hsource : source.toList = a ++ ps.flatMap (·.old.toList))
    (heq : ps.flatMap (·.new.toList) = ps.flatMap (·.old.toList)) : ∀ p ∈ ps, p.new = p.old := by
  induction h generalizing a with
  | @last p hgap =>
    rw [flatMap_singleton, flatMap_singleton] at heq
    exact forall_mem_singleton.mpr (String.toList_inj.mp heq)
  | @text i items p q ps hgap hoffset hlength _ hne htext _ ih =>
    obtain ⟨⟨hkind, hi⟩, hitems⟩ := forall_mem_cons.mp hfirm
    have hedges := edges_of_firm hi hkind hoffset hlength hplaced hsource
    simp only [flatMap_cons] at heq hsource
    obtain ⟨hp, hq, hrest⟩ := unchanged_text hgap hne htext hedges heq
    have hplaced' : Edit.Placed (Text.sizeOfChars (a ++ p.old.toList ++ q.old.toList)) ps := by
      simpa only [Text.sizeOfChars_append, Text.sizeOfChars_toList] using hplaced.2.2.2.2
    have hps := ih hitems hplaced' (by rw [hsource]; simp) hrest
    exact forall_mem_cons.mpr ⟨hp, forall_mem_cons.mpr ⟨hq, hps⟩⟩

end Laid

end Render

end CodeLayout
