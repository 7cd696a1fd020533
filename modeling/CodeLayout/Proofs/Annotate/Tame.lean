import CodeLayout.Proofs.Annotate.Markup

/-!
# Roles between two leaves

A role that is emitted at once stands behind a leaf, where no markup is, unless no leaf was emitted so
far.  A role that is queued stands before a leaf, where markup is only before a tag that prints.  So
it is enough to follow whether a leaf was emitted, and whether a role waits for a leaf (`Tame`).
-/

namespace CodeLayout

open List
open Between (after after_concat Snug prev_text)

namespace Annotate

/-- The state between two leaves.  A mark that widens its gap waits for the next leaf only if `w` is
known. -/
structure Tame (xs : List Lexeme) (w : Prop) (s : State) : Prop where
  stands : Stands xs s.cursor s.items.toList s.pending
  leaf : ∀ k, s.cursor = k + 1 → IsLeaf xs k
  waits : ∀ p ∈ s.pending, p.lead = false → p.kind.widens = true → w

namespace Tame

variable {xs : List Lexeme} {w w' : Prop} {s : State}

theorem start : Tame xs False {} where
  stands := {
    snug := Between.snug_nil
    marks := forall_mem_nil _
    first := fun _ => rfl
    closeTag := nofun
    html := nofun
    narrow := fun _ => ⟨Between.narrow_empty, forall_mem_nil _⟩ }
  leaf := nofun
  waits := forall_mem_nil _

theorem mono (h : Tame xs w s) (hw : w → w') : Tame xs w' s :=
  ⟨h.stands, h.leaf, fun p hp hlead hwidens => hw (h.waits p hp hlead hwidens)⟩

/-- What is `Tame` has no markup behind the leaf that was emitted last. -/
theorem bordersMarkup (h : Tame xs w s) (hpos : 0 < s.cursor) :
    bordersMarkup (kindBefore xs s.cursor) = false := by
  obtain ⟨k, hk⟩ := Nat.exists_eq_succ_of_ne_zero hpos.ne'
  rw [hk]
  exact (h.leaf k hk).bordersMarkup

/-- `Tame` with a mark that widens its gap, emitted behind a leaf. -/
theorem push (h : Tame xs w s) {i : Item} (hmark : i.kind.isText = false)
    (hpos : i.kind.widens = true → 0 < s.cursor) :
    Tame xs w { s with items := s.items.push i } := by
  refine ⟨?_, h.leaf, h.waits⟩
  rw [Array.toList_push]
  exact h.stands.mark hmark fun hwidens => h.bordersMarkup (hpos hwidens)

/-- `Tame` with a mark that widens its gap, queued behind a leaf or for a leaf that is known. -/
theorem queue (h : Tame xs w s) {p : Pending} (hmark : p.kind.isText = false)
    (hlead : p.lead = true → p.kind.widens = true → 0 < s.cursor)
    (hnext : p.lead = false → p.kind.widens = true → w') (hw : w → w') :
    Tame xs w' { s with pending := s.pending ++ [p] } := by
  refine ⟨h.stands.queue_concat hmark fun hl hwidens => ?_, h.leaf, ?_⟩
  · exact h.bordersMarkup (hlead hl hwidens)
  · refine forall_mem_append.mpr ⟨fun p hp hl hwidens => ?_, forall_mem_singleton.mpr hnext⟩
    exact hw (h.waits p hp hl hwidens)

end Tame

/-- All before a leaf was emitted: what is queued, and the tokens in front of it. -/
structure Arrives (i : Nat) (s : State) : Prop where
  cursor : s.cursor = i
  pending : s.pending = []
  snug : Snug s.items.toList
  narrow : (after s.items.toList).prev.map Item.kind = some .html →
    (after s.items.toList).Narrow

/-- A text other than markup was emitted, and nothing is queued. -/
structure Rests (i : Nat) (s : State) : Prop where
  cursor : s.cursor = i
  pending : s.pending = []
  snug : Snug s.items.toList
  prev : (after s.items.toList).prev.map Item.kind ≠ some .html

section Leaves

variable {c : Context} {xs : List Lexeme} {w : Prop} {i : Nat} {item : Item} {kind : ItemKind}
  {t : Token}

variable {s : State}

theorem Rests.tame (h : Rests (i + 1) s) (hi : IsLeaf xs i) : Tame xs False s := by
  have hborders := hi.bordersMarkup
  refine ⟨⟨h.snug, ?_, ?_, ?_, ?_, ?_⟩, ?_, ?_⟩
  · rw [h.pending]
    exact forall_mem_nil _
  · rw [h.cursor]
    nofun
  · rw [h.cursor]
    intro htag
    rw [htag] at hborders
    cases hborders
  · exact fun hprev => absurd hprev h.prev
  · rw [h.cursor, hborders]
    nofun
  · intro k hk
    obtain rfl : i = k := Nat.succ.inj (h.cursor.symm.trans hk)
    exact hi
  · rw [h.pending]
    exact forall_mem_nil _

/-- `trivia` emits the tokens up to an index, with what leads; what waits for a leaf is emitted
last. -/
theorem Runs.nears_of_trivia {j : Nat} {s' : State} (hrun : Runs c (trivia i) s () s')
    (hs : Stands xs s.cursor s.items.toList s.pending)
    (hfold : s.cursor ≤ i → Brings c (Nears xs s.cursor i s.pending {})
      ((c.tokens.extract s.cursor i).toList.foldlM triviaToken {})
      fun seen => Nears xs j i s.pending seen) :
    ∃ seen s₁ o, seen.leadFlushed = true ∧ Nears xs j i s.pending seen s₁ ∧
      Runs c (Annotate.flush false o) s₁ () s' := by
  obtain ⟨ts, s₁, htake, hrun₁⟩ := hrun.of_bind
  obtain ⟨hle, rfl, rfl⟩ := htake.takeUntil
  obtain ⟨seen, s₂, htokens, hrun₂⟩ := hrun₁.of_bind
  have hnears := hfold hle _ _ _ htokens ⟨hs, rfl, List.Subset.refl _, nofun⟩
  obtain ⟨o, s₃, hoffset, hrun₃⟩ := hrun₂.of_bind
  obtain rfl := looks_offset _ _ _ hoffset
  obtain ⟨_, s₄, hlead, hflush⟩ := hrun₃.of_bind
  exact ⟨_, s₄, o, rfl, brings_flushLead _ _ _ hlead hnears, hflush⟩

/-- `trivia` emits what is queued right before a leaf; markup may end there only if none of it
widens its gap. -/
theorem brings_trivia (hc : Reading c xs) (hi : i ≤ xs.length)
    (hw : w → kindBefore xs i ≠ some .inlineHtml) :
    Brings c (Tame xs w) (trivia i) fun _ => Arrives i := by
  intro s a s' hrun hs
  obtain ⟨seen, s₁, o, hseen, hs₁, hflush⟩ := hrun.nears_of_trivia (j := i) hs.stands fun hle => by
    rw [hc.tokens, toList_extract_placed hle hi]
    exact brings_foldlM_triviaToken hc hle hi
  obtain ⟨hcursor, hpending, hitems⟩ := hflush.flush
  refine ⟨hcursor.trans hs₁.cursor, ?_, ?_, ?_⟩
  · rw [hpending, filter_eq_nil_iff]
    intro p hp
    simp [hs₁.flushed hseen p hp]
  · rw [hitems]
    exact hs₁.stands.snug.marks hs₁.flushed_marks
  · rw [hitems, Between.prev_marks hs₁.flushed_marks]
    intro hprev
    have hhtml := hs₁.stands.html hprev
    refine (hs₁.stands.narrow (by rw [hhtml]; rfl)).1.marks hs₁.flushed_marks fun j hj => ?_
    obtain ⟨p, hp, rfl⟩ := mem_map.mp hj
    obtain ⟨hp, hlead⟩ := mem_filter.mp hp
    refine Bool.eq_false_iff.mpr fun hwidens => ?_
    exact hw (hs.waits p (hs₁.queued hp) (by simpa using hlead) hwidens) hhtml

/-- `trivia` emits what follows the last leaf up to the end. -/
theorem brings_trivia_end (hc : Reading c xs) :
    Brings c (Tame xs w) (trivia c.tokens.size) fun _ s => Snug s.items.toList := by
  intro s a s' hrun hs
  have hle : s.cursor ≤ xs.length := by
    cases hcursor : s.cursor with
    | zero => exact Nat.zero_le _
    | succ k => exact (hs.leaf k hcursor).lt
  have hall : (c.tokens.extract s.cursor c.tokens.size).toList =
      Lexer.place (Lexer.start xs s.cursor) ((xs.take xs.length).drop s.cursor) ++
        [⟨.eof, Lexer.start xs xs.length, 0⟩] := by
    rw [hc.size, hc.tokens, toList_extract_placed_end hle, take_length]
  obtain ⟨seen, s₁, o, -, hs₁, hflush⟩ := hrun.nears_of_trivia (j := xs.length) hs.stands fun _ => by
    rw [hall, foldlM_append]
    -- the token at the end has no text, and nothing is emitted for it
    exact .bind (brings_foldlM_triviaToken hc hle (Nat.le_refl _)) fun _ => .pure fun _ hs => hs
  rw [hflush.flush.2.2]
  exact hs₁.stands.snug.marks hs₁.flushed_marks

theorem brings_take : Brings c (Arrives i) (take i) fun _ => Arrives (i + 1) := by
  intro s t s' hrun hs
  obtain ⟨-, rfl⟩ := hrun.take
  exact ⟨rfl, hs.pending, hs.snug, hs.narrow⟩

/-- `push` of the first piece of a leaf. -/
theorem brings_push_first (htext : item.kind.isText = true) (hhtml : item.kind ≠ .html) :
    Brings c (Arrives i) (push item) fun _ => Rests i := by
  intro s a s' hrun hs
  cases hrun
  refine ⟨hs.cursor, hs.pending, ?_, ?_⟩
  · rw [Array.toList_push]
    refine hs.snug.concat fun _ => ⟨fun h => absurd h hhtml, ?_⟩
    exact fun h => hs.narrow (h.resolve_left hhtml)
  · rw [Array.toList_push, after_concat, prev_text htext]
    exact fun h => hhtml (Option.some.inj h)

/-- `push` of more pieces and marks, which may follow. -/
theorem brings_push (hhtml : item.kind ≠ .html) :
    Brings c (Rests i) (push item) fun _ => Rests i := by
  intro s a s' hrun hs
  cases hrun
  refine ⟨hs.cursor, hs.pending, ?_, ?_⟩
  · rw [Array.toList_push]
    refine hs.snug.concat fun _ => ⟨fun h => absurd h hhtml, ?_⟩
    exact fun h => absurd (h.resolve_left hhtml) hs.prev
  · rw [Array.toList_push, after_concat]
    cases htext : item.kind.isText with
    | true =>
      rw [prev_text htext]
      exact fun h => hhtml (Option.some.inj h)
    | false =>
      rw [Between.prev_mark htext]
      exact hs.prev

theorem brings_pushToken_first (htext : kind.isText = true) (hhtml : kind ≠ .html) :
    Brings c (Arrives i) (pushToken kind t) fun _ => Rests i :=
  .look_bind looks_breakable fun _ => brings_push_first htext hhtml

theorem brings_role_behind {r : Role} : Brings c (Rests i) (role r) fun _ => Rests i :=
  .look_bind looks_offset fun _ => .look_bind looks_breakable fun _ => brings_push nofun

theorem brings_castPieces : Brings c (Arrives i) (castPieces t) fun _ => Rests i := by
  have hoptional {b : Prop} [Decidable b] {m : Emit Unit} (j : Item) (hj : j.kind ≠ .html)
      (hm : Brings c (Rests i) m fun _ => Rests i) :
      Brings c (Rests i) (if b then do push j; m else m) fun _ => Rests i :=
    .optional (fun _ => brings_push hj) hm
  refine .read_bind (.look_bind looks_breakable fun _ => ?_)
  refine .bind (brings_push_first rfl nofun) fun _ => .bind (brings_push nofun) fun _ => ?_
  refine hoptional _ nofun (.bind (brings_push nofun) fun _ => ?_)
  refine hoptional _ nofun (.bind (brings_push nofun) fun _ => ?_)
  exact .bind (brings_push nofun) fun _ => brings_role_behind

/-- `leaf` may have a role that waits for it, if it is no tag. -/
theorem brings_leaf (hc : Reading c xs) (hi : IsLeaf xs i)
    (hw : w → (c.token i).kind ≠ .openTagWithEcho) :
    Brings c (Tame xs w) (leaf i) fun _ => Tame xs False := by
  have hlt := hi.lt
  have hfront : w → kindBefore xs i ≠ some .inlineHtml := by
    intro h hhtml
    have hmarkup := hc.isMarkup_of_borders hlt (by rw [hhtml]; rfl)
    have hecho := eq_echo_of_isMarkup hmarkup (hi.isTrivia hlt)
    exact hw h ((hc.kind_getD hlt).trans hecho)
  refine .bind (brings_trivia hc hlt.le hfront) fun _ => .bind brings_take fun t => ?_
  refine Brings.post (Q := fun _ => Rests (i + 1)) ?_ fun _ s hs => hs.tame hi
  split
  · exact brings_castPieces
  · exact brings_pushToken_first rfl nofun
  · exact .bind (brings_pushToken_first rfl nofun) fun _ => brings_role_behind
  · exact brings_pushToken_first rfl nofun

/-- `verbatim` keeps a node with syntax problems as one text. -/
theorem brings_verbatim (hc : Reading c xs) {t : Tree} (hsorted : t.leaves.Pairwise (· < ·))
    (hleaves : ∀ i ∈ t.leaves, IsLeaf xs i) :
    Brings c (Tame xs False) (verbatim t) fun _ => Tame xs False := by
  unfold verbatim
  rw [Tree.first?_eq_head?, Tree.last?_eq_getLast?]
  generalize t.leaves = is at hsorted hleaves ⊢
  cases is with
  | nil => exact .pure fun s hs => hs
  | cons first rest =>
    rw [head?_cons, getLast?_eq_some_getLast (cons_ne_nil first rest)]
    have hmem := getLast_mem (cons_ne_nil first rest)
    generalize (first :: rest).getLast (cons_ne_nil _ _) = last at hmem
    have hfirst := (hleaves first mem_cons_self).lt
    have hlast := (hleaves last hmem).lt
    have hle : first ≤ last := by
      rcases mem_cons.mp hmem with rfl | hin
      · exact Nat.le_refl _
      · exact Nat.le_of_lt (rel_of_pairwise_cons hsorted hin)
    have hsize := hc.size
    have hhead := head?_extract c.tokens (i := first) (j := last + 1) (by omega) (by omega)
    have htail := getLast?_extract c.tokens (i := first) (j := last) (by omega) (by omega)
    rw [hc.getElem? hfirst] at hhead
    rw [hc.getElem? hlast] at htail
    refine .bind (brings_trivia hc hfirst.le False.elim) fun _ s a s' hrun hs => ?_
    obtain ⟨taken, s₁, htake, hrun⟩ := hrun.of_bind
    obtain ⟨-, rfl, rfl⟩ := htake.takeUntil
    rw [hs.cursor, hhead, htail] at hrun
    have hpush : Brings c (Arrives (last + 1)) (do
        push ⟨.verbatim, (tokenOf (Lexer.start xs first) xs[first]).start,
          (tokenOf (Lexer.start xs last) xs[last]).stop -
            (tokenOf (Lexer.start xs first) xs[first]).start, ← breakable⟩) fun _ => Rests (last + 1) :=
      .look_bind looks_breakable fun _ => brings_push_first rfl nofun
    have hrests := hpush _ _ _ hrun ⟨rfl, hs.pending, hs.snug, hs.narrow⟩
    exact hrests.tame (hleaves last hmem)

end Leaves

/-! ## Marks between two leaves -/

section Marks

variable {c : Context} {xs : List Lexeme} {w w' : Prop} {kind : ItemKind} {lead : Bool} {s s' : State}

/-- `mark` emits a mark that widens its gap behind a leaf. -/
theorem Runs.tame_mark (h : Runs c (mark kind) s () s') (hs : Tame xs w s) (hmark : kind.isText = false)
    (hpos : kind.widens = true → 0 < s.cursor) : Tame xs w s' := by
  obtain ⟨o, s₁, ho, h⟩ := h.of_bind
  obtain ⟨b, s₂, hb, h⟩ := h.of_bind
  obtain rfl := looks_offset _ _ _ ho
  obtain rfl := looks_breakable _ _ _ hb
  cases h
  exact hs.push hmark hpos

/-- `queue` puts off a mark that widens its gap behind a leaf, or for a leaf that is known. -/
theorem Runs.tame_queue (h : Runs c (queue kind lead) s () s') (hs : Tame xs w s)
    (hmark : kind.isText = false) (hlead : lead = true → kind.widens = true → 0 < s.cursor)
    (hnext : lead = false → kind.widens = true → w') (hw : w → w') : Tame xs w' s' := by
  cases h
  exact hs.queue hmark hlead hnext hw

end Marks

end Annotate

end CodeLayout
