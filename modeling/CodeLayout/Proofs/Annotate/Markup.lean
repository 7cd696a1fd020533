import CodeLayout.Proofs.Annotate.Ready
import CodeLayout.Proofs.Grammar.Positions
import CodeLayout.Proofs.Stream.Between

/-!
# Gaps next to markup

Markup touches the tags around it, and no gap between them may be widened.  Most roles widen their
gap, so none of them may come to stand next to markup: `Between.Snug` says so of the items of a
stream.

What has been emitted and what is queued leave such gaps alone in front of a leaf (`Stands`).
-/

namespace CodeLayout

open List

/-- Marks that may put something into an empty gap.  Blank lines are added to a line break only, and
nothing stands before a colon. -/
def ItemKind.widens : ItemKind → Bool
  | role (.blank _) | role .beforeColon => false
  | role _ | align _ => true
  | _ => false

namespace Between

/-- Nothing that has been read of the gap widens it. -/
structure Narrow (b : Between) : Prop where
  aligned : b.aligned = false
  roles : ∀ r ∈ b.roles, (ItemKind.role r).widens = false

/-- A text of the kind may end the gap: markup comes first or behind a close tag, and nothing widens a
gap next to markup. -/
structure Admits (b : Between) (kind : ItemKind) : Prop where
  behind : kind = .html → b.prev = none ∨ b.prev.map Item.kind = some .closeTag
  narrow : kind = .html ∨ b.prev.map Item.kind = some .html → b.Narrow

/-- Nothing widens the gaps next to markup. -/
def Snug (items : List Item) : Prop :=
  ∀ before i behind, items = before ++ i :: behind → i.kind.isText = true →
    (after before).Admits i.kind

variable {b : Between} {i : Item} {items new : List Item}

theorem narrow_empty : Narrow {} := ⟨rfl, forall_mem_nil _⟩

theorem narrow_text (hi : i.kind.isText = true) : (b.add i).Narrow := by
  rw [b.add_of_isText hi]
  exact ⟨rfl, forall_mem_nil _⟩

theorem prev_text (hi : i.kind.isText = true) : (b.add i).prev.map Item.kind = some i.kind := by
  rw [b.add_of_isText hi]
  rfl

theorem prev_mark (hi : i.kind.isText = false) : (b.add i).prev = b.prev :=
  if_neg (by simp [hi])

theorem Narrow.mark (h : b.Narrow) (hi : i.kind.isText = false) (hwidens : i.kind.widens = false) :
    (b.add i).Narrow := by
  refine ⟨?_, ?_⟩
  · have hoperator : i.kind.isOperator = false := by
      cases hkind : i.kind with
      | align m => rw [hkind] at hwidens; cases hwidens
      | _ => rfl
    simp [add, h.aligned, hoperator]
  · show ∀ r ∈ i.addRole b.roles, _
    unfold Item.addRole
    split
    · next r hr =>
      rw [hr] at hwidens
      exact forall_mem_append.mpr ⟨h.roles, forall_mem_singleton.mpr hwidens⟩
    · rw [if_neg (by simp [hi])]
      exact h.roles

theorem snug_nil : Snug [] := fun before i behind h => absurd h (by simp)

/-- One more item is `Snug` behind the others, if the last gap `Admits` it. -/
theorem Snug.concat (h : Snug items) (hi : i.kind.isText = true → (after items).Admits i.kind) :
    Snug (items ++ [i]) := by
  intro before j behind hitems hj
  rcases eq_nil_or_concat behind with rfl | ⟨behind, k, rfl⟩
  · obtain ⟨rfl, hcons⟩ := append_inj' hitems rfl
    cases hcons
    exact hi hj
  · rw [concat_eq_append, ← cons_append, ← append_assoc] at hitems
    exact h before j behind (append_inj' hitems rfl).1 hj

/-- Marks leave the `prev` text as it is. -/
theorem prev_marks (hnew : ∀ i ∈ new, i.kind.isText = false) :
    (after (items ++ new)).prev = (after items).prev := by
  induction new generalizing items with
  | nil => rw [append_nil]
  | cons i new ih =>
    obtain ⟨hi, hnew⟩ := forall_mem_cons.mp hnew
    rw [append_cons, ih hnew, after_concat, prev_mark hi]

theorem Snug.marks (h : Snug items) (hnew : ∀ i ∈ new, i.kind.isText = false) :
    Snug (items ++ new) := by
  induction new generalizing items with
  | nil =>
    rw [append_nil]
    exact h
  | cons i new ih =>
    obtain ⟨hi, hnew⟩ := forall_mem_cons.mp hnew
    rw [append_cons]
    exact ih (h.concat fun htext => absurd htext (by simp [hi])) hnew

theorem Narrow.marks (h : (after items).Narrow) (hnew : ∀ i ∈ new, i.kind.isText = false)
    (hwidens : ∀ i ∈ new, i.kind.widens = false) : (after (items ++ new)).Narrow := by
  induction new generalizing items with
  | nil =>
    rw [append_nil]
    exact h
  | cons i new ih =>
    obtain ⟨hi, hnew⟩ := forall_mem_cons.mp hnew
    obtain ⟨hw, hwidens⟩ := forall_mem_cons.mp hwidens
    rw [append_cons]
    refine ih ?_ hnew hwidens
    rw [after_concat]
    exact h.mark hi hw

end Between

open Between (after after_concat Snug prev_text)

namespace Annotate

/-! ## Tokens next to markup -/

/-- The kind of the lexeme before an index. -/
def kindBefore (xs : List Lexeme) : Nat → Option TokenKind
  | 0 => none
  | k + 1 => xs[k]?.map Lexeme.kind

/-- Markup may stand behind such a lexeme, or it is markup. -/
def bordersMarkup : Option TokenKind → Bool
  | none | some .closeTag | some .inlineHtml => true
  | some _ => false

section Neighbours

variable {c : Context} {xs : List Lexeme} {i : Nat}

theorem kindBefore_succ (hi : i < xs.length) : kindBefore xs (i + 1) = some xs[i].kind := by
  rw [kindBefore, getElem?_eq_getElem hi, Option.map_some]

/-- A leaf is never `bordersMarkup`. -/
theorem IsLeaf.bordersMarkup (h : IsLeaf xs i) : bordersMarkup (kindBefore xs (i + 1)) = false := by
  have hlt := h.lt
  have htrivia := h.isTrivia hlt
  rw [kindBefore_succ hlt]
  generalize xs[i].kind = kind at htrivia
  cases kind <;> first | rfl | cases htrivia

theorem Reading.kindBefore_html (hc : Reading c xs) (hi : i < xs.length)
    (h : xs[i].kind = .inlineHtml) : i = 0 ∨ kindBefore xs i = some .closeTag := by
  cases i with
  | zero => exact .inl rfl
  | succ k =>
    have hlexes := hc.lexes_at (i := k) (by omega)
    rw [drop_eq_getElem_cons hi] at hlexes
    rw [kindBefore_succ (by omega), hlexes.kind_before_html h]
    exact .inr rfl

/-- Where the lexeme before `bordersMarkup`, there are only markup and open tags. -/
theorem Reading.isMarkup_of_borders (hc : Reading c xs) (hi : i < xs.length)
    (h : bordersMarkup (kindBefore xs i) = true) : xs[i].kind.isMarkup = true := by
  have hmode : Mode.markup.after (xs.take i) = .markup := by
    cases i with
    | zero => rfl
    | succ k =>
      have hk : k < xs.length := by omega
      rw [kindBefore_succ hk] at h
      rw [take_succ_eq_append_getElem hk, Mode.after, foldl_append]
      generalize hkind : xs[k].kind = kind at h
      cases kind with
      | closeTag => exact congrArg (Mode.next _) hkind
      | inlineHtml =>
        refine (congrArg (Mode.next _) hkind).trans ?_
        exact (hc.lexes_at hk).mode_of_html hkind
      | _ => cases h
  obtain ⟨rest, -, -, hrule, -⟩ := (hc.lexes_at hi).rule_at
  rw [hmode] at hrule
  exact Lexeme.isMarkup_of_markupRule hrule

/-- Of the kinds that are `isMarkup`, the grammar sees only the tag that prints. -/
theorem eq_echo_of_isMarkup {kind : TokenKind} (h : kind.isMarkup = true)
    (htrivia : kind.isTrivia = false) : kind = .openTagWithEcho := by
  unfold TokenKind.isMarkup at h
  split at h
  · cases htrivia
  · cases htrivia
  · rfl
  · cases h

end Neighbours

/-! ## Between two tokens -/

/-- The tokens before an index have been emitted, with the marks among them: the gap that follows is
not widened, nor will it be by what leads, where markup may stand. -/
structure Stands (xs : List Lexeme) (j : Nat) (items : List Item) (queue : List Pending) : Prop where
  snug : Snug items
  marks : ∀ p ∈ queue, p.kind.isText = false
  first : j = 0 → (after items).prev = none
  closeTag : kindBefore xs j = some .closeTag →
    (after items).prev.map Item.kind = some .closeTag
  html : (after items).prev.map Item.kind = some .html → kindBefore xs j = some .inlineHtml
  narrow : bordersMarkup (kindBefore xs j) = true →
    (after items).Narrow ∧ ∀ p ∈ queue, p.lead = true → p.kind.widens = false

namespace Stands

variable {c : Context} {xs : List Lexeme} {j : Nat} {i : Item} {items new : List Item}
  {p : Pending} {queue queue' : List Pending}

section

variable (h : Stands xs j items queue)
include h

/-- `Stands` with marks that widen their gap only where no markup stands. -/
theorem marks_append (hnew : ∀ i ∈ new, i.kind.isText = false)
    (hwidens : ∀ i ∈ new, i.kind.widens = true → bordersMarkup (kindBefore xs j) = false) :
    Stands xs j (items ++ new) queue := by
  have hprev : (after (items ++ new)).prev = (after items).prev :=
    Between.prev_marks hnew
  refine ⟨h.snug.marks hnew, h.marks, ?_, ?_, ?_, fun hborders => ?_⟩
  · rw [hprev]
    exact h.first
  · rw [hprev]
    exact h.closeTag
  · rw [hprev]
    exact h.html
  · obtain ⟨hnarrow, hlead⟩ := h.narrow hborders
    refine ⟨hnarrow.marks hnew fun i hi => Bool.eq_false_iff.mpr fun hw => ?_, hlead⟩
    rw [hwidens i hi hw] at hborders
    cases hborders

theorem mark (hi : i.kind.isText = false)
    (hwidens : i.kind.widens = true → bordersMarkup (kindBefore xs j) = false) :
    Stands xs j (items ++ [i]) queue :=
  h.marks_append (forall_mem_singleton.mpr hi) (forall_mem_singleton.mpr hwidens)

/-- `Stands` with less in the queue. -/
theorem queue_subset (hsub : queue' ⊆ queue) :
    Stands xs j items queue' where
  snug := h.snug
  marks p hp := h.marks p (hsub hp)
  first := h.first
  closeTag := h.closeTag
  html := h.html
  narrow hborders :=
    ⟨(h.narrow hborders).1, fun p hp => (h.narrow hborders).2 p (hsub hp)⟩

theorem queue_concat (hp : p.kind.isText = false)
    (hlead : p.lead = true → p.kind.widens = true → bordersMarkup (kindBefore xs j) = false) :
    Stands xs j items (queue ++ [p]) where
  snug := h.snug
  marks := forall_mem_append.mpr ⟨h.marks, forall_mem_singleton.mpr hp⟩
  first := h.first
  closeTag := h.closeTag
  html := h.html
  narrow hborders := by
    obtain ⟨hnarrow, hqueue⟩ := h.narrow hborders
    refine ⟨hnarrow, forall_mem_append.mpr ⟨hqueue, forall_mem_singleton.mpr ?_⟩⟩
    intro hl
    refine Bool.eq_false_iff.mpr fun hw => ?_
    rw [hlead hl hw] at hborders
    cases hborders

/-- A text other than markup may follow (`Admits`). -/
theorem admits {kind : ItemKind} (hkind : kind ≠ .html) : (after items).Admits kind := by
  refine ⟨fun hhtml => absurd hhtml hkind, ?_⟩
  rintro (hhtml | hprev)
  · exact absurd hhtml hkind
  · exact (h.narrow (by rw [h.html hprev]; rfl)).1

/-- `Stands` behind a token that is emitted as a text of a kind that goes with its own. -/
theorem text (hj : j < xs.length) (hi : i.kind.isText = true)
    (hadmits : (after items).Admits i.kind)
    (htag : xs[j].kind = .closeTag → i.kind = .closeTag)
    (hhtml : i.kind = .html → xs[j].kind = .inlineHtml)
    (hlead : bordersMarkup (some xs[j].kind) = true →
      ∀ p ∈ queue, p.lead = true → p.kind.widens = false) :
    Stands xs (j + 1) (items ++ [i]) queue := by
  refine ⟨h.snug.concat fun _ => hadmits, h.marks, nofun, ?_, ?_, ?_⟩
  · rw [kindBefore_succ hj, after_concat, prev_text hi]
    exact fun hkind => congrArg some (htag (Option.some.inj hkind))
  · rw [kindBefore_succ hj, after_concat, prev_text hi]
    exact fun hkind => congrArg some (hhtml (Option.some.inj hkind))
  · rw [kindBefore_succ hj, after_concat]
    exact fun hborders => ⟨Between.narrow_text hi, hlead hborders⟩

/-- `Stands` behind a text of a token that borders no markup. -/
theorem inner (hj : j < xs.length) (hi : i.kind.isText = true)
    (hhtml : i.kind ≠ .html) (hborders : bordersMarkup (some xs[j].kind) = false) :
    Stands xs (j + 1) (items ++ [i]) queue := by
  refine h.text hj hi (h.admits hhtml) (fun hkind => ?_) (fun hkind => absurd hkind hhtml) ?_
  · rw [hkind] at hborders
    cases hborders
  · rw [hborders]
    nofun

end

/-- `Stands` behind blanks, which are no text, and stand next to no markup. -/
theorem blanks (hc : Reading c xs) (h : Stands xs j items queue) (hj : j < xs.length)
    (hkind : xs[j].kind = .whitespace) (hi : i.kind.isText = false) :
    Stands xs (j + 1) (items ++ [i]) queue := by
  have hafter : kindBefore xs (j + 1) = some .whitespace := by rw [kindBefore_succ hj, hkind]
  refine ⟨h.snug.concat fun htext => absurd htext (by simp [hi]), h.marks, nofun, ?_, ?_, ?_⟩
  · rw [hafter]
    nofun
  · rw [after_concat, Between.prev_mark hi]
    intro hprev
    have hmarkup := hc.isMarkup_of_borders hj (by rw [h.html hprev]; rfl)
    rw [hkind] at hmarkup
    cases hmarkup
  · rw [hafter]
    nofun

end Stands

/-! ## Steps that only look -/

/-- The step only looks. -/
def Looks {α : Type} (c : Context) (m : Emit α) : Prop := ∀ s a s', Runs c m s a s' → s' = s

namespace Looks

variable {α β : Type} {c : Context} {m m' : Emit α} {f : α → Emit β}

theorem of_runs (h : ∀ s, ∃ a, Runs c m s a s) : Looks c m := by
  intro s a s' hrun
  obtain ⟨a', hrun'⟩ := h s
  exact (hrun'.unique hrun).2

theorem pure {a : α} : Looks c (pure a) := .of_runs fun _ => ⟨_, rfl⟩

theorem bind (hm : Looks c m) (hf : ∀ a, Looks c (f a)) : Looks c (m >>= f) := by
  intro s b s₂ hrun
  obtain ⟨a, s₁, hrun₁, hrun₂⟩ := hrun.of_bind
  obtain rfl := hm s a s₁ hrun₁
  exact hf a s₁ b s₂ hrun₂

theorem ite {b : Prop} [Decidable b] (hm : Looks c m) (hm' : Looks c m') :
    Looks c (if b then m else m') := by
  split
  · exact hm
  · exact hm'

theorem anyM {f : α → Emit Bool} {as : List α} (hf : ∀ a, Looks c (f a)) : Looks c (as.anyM f) := by
  induction as with
  | nil => exact .pure
  | cons a as ih =>
    rw [List.anyM]
    refine .bind (hf a) fun b => ?_
    split
    · exact .pure
    · exact ih

end Looks


section Looking

variable {c : Context}

theorem looks_read : Looks c (read : Emit Context) := .of_runs fun _ => ⟨_, rfl⟩

theorem looks_get : Looks c (get : Emit State) := .of_runs fun _ => ⟨_, rfl⟩

theorem looks_offset : Looks c offset := .of_runs fun _ => ⟨_, rfl⟩

theorem looks_breakable : Looks c breakable := .of_runs fun _ => ⟨_, rfl⟩

theorem looks_peekSignificant : Looks c peekSignificant := .of_runs fun _ => ⟨_, rfl⟩

end Looking

section

variable {c : Context} {s s' : State} {i : Nat} {t : Token} {ts : List Token}

/-- `takeUntil` hands out tokens from the cursor on. -/
theorem Runs.takeUntil (h : Runs c (takeUntil i) s ts s') :
    s.cursor ≤ i ∧ ts = (c.tokens.extract s.cursor i).toList ∧ s' = { s with cursor := i } := by
  by_cases hi : s.cursor ≤ i ∧ i ≤ c.tokens.size
  · exact ⟨hi.1, (runs_takeUntil hi.1 hi.2).runs.unique h⟩
  · -- beyond the tokens the step does not answer
    have hout : (i < s.cursor || i > c.tokens.size) = true := by
      simp only [Bool.or_eq_true, decide_eq_true_eq]
      omega
    unfold Annotate.takeUntil at h
    obtain ⟨c', s₁, hc', h⟩ := h.of_bind
    obtain ⟨s₂, s₃, hs₂, h⟩ := h.of_bind
    cases hc'
    cases hs₂
    rw [if_pos hout] at h
    cases h

/-- `take` hands out the token at the index. -/
theorem Runs.take (h : Runs c (take i) s t s') :
    c.tokens[i]? = some t ∧ s' = { s with cursor := i + 1 } := by
  unfold Annotate.take at h
  obtain ⟨s₁, s₂, hget, h⟩ := h.of_bind
  cases hget
  split at h
  · cases h
  · obtain ⟨c', s₃, hread, h⟩ := h.of_bind
    cases hread
    split at h
    · cases h
    · next t' ht =>
      cases h
      exact ⟨ht, rfl⟩

end

/-! ## Steps from states to states -/

/-- From a state that is as `P` says, the step comes to one that is as `Q` says, if it answers. -/
def Brings {α : Type} (c : Context) (P : State → Prop) (m : Emit α) (Q : α → State → Prop) : Prop :=
  ∀ s a s', Runs c m s a s' → P s → Q a s'

namespace Brings

variable {α β : Type} {c : Context} {P P' : State → Prop} {Q Q' : α → State → Prop}
  {R : β → State → Prop} {m m' : Emit α} {f : α → Emit β}

variable {a : α} {b : Prop}

theorem pure (h : ∀ s, P s → Q a s) : Brings c P (pure a) Q := by
  intro s a' s' hrun hP
  cases hrun
  exact h s hP

theorem bind (hm : Brings c P m Q) (hf : ∀ a, Brings c (Q a) (f a) R) : Brings c P (m >>= f) R := by
  intro s b s₂ hrun hP
  obtain ⟨a, s₁, hrun₁, hrun₂⟩ := hrun.of_bind
  exact hf a s₁ b s₂ hrun₂ (hm s a s₁ hrun₁ hP)

theorem post (hm : Brings c P m Q) (h : ∀ a s, Q a s → Q' a s) : Brings c P m Q' :=
  fun s a s' hrun hP => h a s' (hm s a s' hrun hP)

theorem look (hm : Looks c m) : Brings c P m fun _ => P := by
  intro s a s' hrun hP
  rw [hm s a s' hrun]
  exact hP

theorem look_bind (hm : Looks c m) (hf : ∀ a, Brings c P (f a) R) : Brings c P (m >>= f) R :=
  bind (look hm) hf

theorem read_bind {f : Context → Emit β} (hf : Brings c P (f c) R) : Brings c P (read >>= f) R := hf

theorem ite [Decidable b] (hm : b → Brings c P m Q) (hm' : ¬ b → Brings c P m' Q) :
    Brings c P (if b then m else m') Q := by
  split
  · next hb => exact hm hb
  · next hb => exact hm' hb

/-- `Brings` with a first step under a condition that keeps the state as it is. -/
theorem optional [Decidable b] {m : Emit PUnit} {f : Emit β} (hm : b → Brings c P m fun _ => P)
    (hf : Brings c P f R) :
    Brings c P (if b then m >>= fun _ => f else f) R :=
  .ite (fun hb => .bind (hm hb) fun _ => hf) fun _ => hf

end Brings

/-! ## In front of a leaf -/

section Trivia

variable {c : Context} {xs : List Lexeme} {j : Nat} {kind : ItemKind} {i : Item} {seen : Seen}
  {k : Nat} {queue : List Pending}

/-- Some of the tokens in front of a leaf have been emitted; nothing was queued meanwhile. -/
structure Nears (xs : List Lexeme) (j k : Nat) (queue : List Pending) (seen : Seen) (s : State) :
    Prop where
  stands : Stands xs j s.items.toList s.pending
  cursor : s.cursor = k
  queued : s.pending ⊆ queue
  flushed : seen.leadFlushed = true → ∀ p ∈ s.pending, p.lead = false

variable {s : State} {o : Nat}

theorem Nears.of_seen {seen' : Seen} (h : Nears xs j k queue seen s)
    (hseen : seen'.leadFlushed = seen.leadFlushed) : Nears xs j k queue seen' s :=
  ⟨h.stands, h.cursor, h.queued, fun hflushed => h.flushed (hseen ▸ hflushed)⟩

/-- What is pushed brings the tokens on (`Nears`). -/
theorem Nears.push {j' : Nat} (h : Nears xs j k queue seen s)
    (hpush : Stands xs j' (s.items.toList ++ [i]) s.pending) :
    Nears xs j' k queue seen { s with items := s.items.push i } := by
  refine ⟨?_, h.cursor, h.queued, h.flushed⟩
  rw [Array.toList_push]
  exact hpush

theorem brings_pushToken {t : Token} (h : ∀ s : State, Nears xs j k queue seen s →
      ∀ b, Stands xs (j + 1) (s.items.toList ++ [⟨kind, t.start, t.length, b⟩]) s.pending) :
    Brings c (Nears xs j k queue seen) (pushToken kind t)
      fun _ => Nears xs (j + 1) k queue seen := by
  refine .look_bind looks_breakable fun b => ?_
  intro s a s' hrun hs
  cases hrun
  exact hs.push (h s hs b)

/-- `Brings` for a role that is pushed where no markup stands. -/
theorem brings_pushRole {r : Role} {b : Bool} (hborders : bordersMarkup (kindBefore xs j) = false) :
    Brings c (Nears xs j k queue seen) (push (.mark (.role r) o b))
      fun _ => Nears xs j k queue seen := by
  intro s a s' hrun hs
  cases hrun
  exact hs.push (hs.stands.mark rfl fun _ => hborders)

/-- `flush` emits queued marks, which are queued no longer. -/
theorem Runs.flush {lead : Bool} {s' : State} (h : Runs c (flush lead o) s () s') :
    s'.cursor = s.cursor ∧ s'.pending = s.pending.filter (fun p => !(p.lead == lead)) ∧
      s'.items.toList = s.items.toList ++
        (s.pending.filter (·.lead == lead)).map fun p => Item.mark p.kind o p.breakable := by
  cases h
  dsimp only
  rw [partition_eq_filter_filter]
  refine ⟨rfl, rfl, ?_⟩
  rw [Array.toList_append]

/-- What is queued are marks. -/
theorem Nears.flushed_marks (h : Nears xs j k queue seen s) {lead : Bool} :
    ∀ i ∈ (s.pending.filter (·.lead == lead)).map (fun p => Item.mark p.kind o p.breakable),
      i.kind.isText = false := by
  intro i hi
  obtain ⟨p, hp, rfl⟩ := mem_map.mp hi
  exact h.stands.marks p (mem_of_mem_filter hp)

/-- `flushLead` emits what leads, unless it has been. -/
theorem brings_flushLead :
    Brings c (Nears xs j k queue seen) (flushLead seen o)
      fun _ => Nears xs j k queue ⟨true, seen.lineStarted⟩ := by
  refine .ite (fun _ s a s' hrun hs => ?_) fun hflushed => .pure fun s hs => ?_
  · obtain ⟨hcursor, hpending, hitems⟩ := hrun.flush
    have hsub : s'.pending ⊆ s.pending := by
      rw [hpending]
      exact fun p hp => mem_of_mem_filter hp
    refine ⟨?_, hcursor.trans hs.cursor, List.Subset.trans hsub hs.queued, fun _ p hp => ?_⟩
    · rw [hitems]
      refine (hs.stands.marks_append hs.flushed_marks fun i hi hwidens => ?_).queue_subset hsub
      obtain ⟨p, hp, rfl⟩ := mem_map.mp hi
      obtain ⟨hp, hlead⟩ := mem_filter.mp hp
      refine Bool.eq_false_iff.mpr fun hborders => ?_
      have := (hs.stands.narrow hborders).2 p hp (by simpa using hlead)
      exact absurd hwidens (by simp [Item.mark, this])
    · rw [hpending] at hp
      simpa using (mem_filter.mp hp).2
  · exact ⟨hs.stands, hs.cursor, hs.queued, fun _ => hs.flushed (by simpa using hflushed)⟩

/-- `triviaToken` emits a token in front of a leaf. -/
theorem brings_triviaToken (hc : Reading c xs) (hj : j < xs.length) :
    Brings c (Nears xs j k queue seen) (triviaToken seen (tokenOf (Lexer.start xs j) xs[j]))
      fun seen' => Nears xs (j + 1) k queue seen' := by
  have hinner {sn sn' : Seen} {kind : ItemKind} (hseen : sn'.leadFlushed = sn.leadFlushed)
      (hkind : kind.isText = true) (hhtml : kind ≠ .html)
      (hborders : bordersMarkup (some xs[j].kind) = false) :
      Brings c (Nears xs j k queue sn) (do
        pushToken kind (tokenOf (Lexer.start xs j) xs[j])
        return sn') fun a => Nears xs (j + 1) k queue a := by
    refine .bind (brings_pushToken fun s hs b => ?_) fun _ => .pure fun s hs => hs.of_seen hseen
    exact hs.stands.inner hj hkind hhtml hborders
  have hcomment (hkind : xs[j].kind.isComment = true) :
      Brings c (Nears xs j k queue seen) (do
        if seen.lineStarted then flushLead seen (Lexer.start xs j)
        pushToken (commentKind xs[j].kind) (tokenOf (Lexer.start xs j) xs[j])
        return ⟨seen.leadFlushed || seen.lineStarted, false⟩)
        fun a => Nears xs (j + 1) k queue a := by
    have hborders : bordersMarkup (some xs[j].kind) = false := by
      generalize xs[j].kind = kind at hkind
      cases kind <;> first | rfl | cases hkind
    have hnot : commentKind xs[j].kind ≠ .html := by
      intro h
      rw [(suits_commentKind hkind).html.mp h] at hkind
      cases hkind
    refine .ite (fun hline => ?_) fun hline => ?_
    · refine .bind brings_flushLead fun _ => hinner ?_ (commentKind_isText _) hnot hborders
      simp [hline]
    · refine hinner ?_ (commentKind_isText _) hnot hborders
      simp [hline]
  unfold triviaToken
  split
  · next hkind =>
    refine .read_bind (.bind (brings_pushToken fun s hs b => ?_) fun _ => .pure ?_)
    · refine hs.stands.blanks hc hj hkind ?_
      dsimp only
      split <;> rfl
    · exact fun s hs => hs.of_seen rfl
  · next hkind => exact hcomment (by rw [show xs[j].kind = _ from hkind]; rfl)
  · next hkind => exact hcomment (by rw [show xs[j].kind = _ from hkind]; rfl)
  · next hkind => exact hcomment (by rw [show xs[j].kind = _ from hkind]; rfl)
  · next hkind =>
    have hk : xs[j].kind = .closeTag := hkind
    have hborders : bordersMarkup (kindBefore xs j) = false := by
      refine Bool.eq_false_iff.mpr fun h => ?_
      have hmarkup := hc.isMarkup_of_borders hj h
      rw [hk] at hmarkup
      cases hmarkup
    refine .bind brings_flushLead fun _ => .look_bind looks_breakable fun _ => ?_
    refine .bind (brings_pushRole hborders) fun _ => ?_
    refine .bind (brings_pushToken fun s hs b => ?_) fun _ => .pure fun s hs => hs.of_seen rfl
    refine hs.stands.text hj rfl (hs.stands.admits nofun) (fun _ => rfl) nofun ?_
    exact fun _ p hp hlead => absurd (hs.flushed rfl p hp) (by simp [hlead])
  · next hkind =>
    have hk : xs[j].kind = .openTag := hkind
    refine .bind (brings_pushToken fun s hs b => ?_) fun _ => .look_bind looks_breakable fun _ => ?_
    · exact hs.stands.inner hj rfl nofun (by rw [hk]; rfl)
    · refine .bind (brings_pushRole ?_) fun _ => .pure fun s hs => hs
      rw [kindBefore_succ hj, hk]
      rfl
  · next hkind =>
    have hk : xs[j].kind = .inlineHtml := hkind
    have hfront := hc.kindBefore_html hj hk
    have hborders : bordersMarkup (kindBefore xs j) = true := by
      rcases hfront with rfl | hfront
      · rfl
      · rw [hfront]
        rfl
    refine .bind (brings_pushToken fun s hs b => ?_) fun _ => .pure fun s hs => hs.of_seen rfl
    obtain ⟨hnarrow, hlead⟩ := hs.stands.narrow hborders
    refine hs.stands.text hj rfl ⟨fun _ => ?_, fun _ => hnarrow⟩ ?_ (fun _ => hk) fun _ => hlead
    · exact hfront.imp hs.stands.first hs.stands.closeTag
    · exact fun h => absurd (hk.symm.trans h) (by decide)
  · next hkind => exact absurd hkind (hc.lexes.kind_ne_eof _ (getElem_mem hj))
  · next htag _ hhtml _ =>
    refine hinner rfl rfl nofun ?_
    have hnot : xs[j].kind ≠ .closeTag ∧ xs[j].kind ≠ .inlineHtml := ⟨htag, hhtml⟩
    generalize xs[j].kind = kind at hnot
    cases kind <;> first | rfl | simp at hnot

/-- `triviaToken` emits the tokens in front of a leaf one after the other. -/
theorem brings_foldlM_triviaToken (hc : Reading c xs) {i : Nat} (hji : j ≤ i) (hi : i ≤ xs.length) :
    Brings c (Nears xs j k queue seen)
      ((Lexer.place (Lexer.start xs j) ((xs.take i).drop j)).foldlM triviaToken seen)
      fun seen' => Nears xs i k queue seen' := by
  induction hd : i - j generalizing j seen with
  | zero =>
    obtain rfl : j = i := by omega
    rw [drop_of_length_le (by rw [length_take]; omega)]
    exact .pure fun s hs => hs
  | succ d ih =>
    have hj : j < xs.length := by omega
    rw [drop_take_cons (by omega) hj, Lexer.place, foldlM_cons]
    refine .bind (brings_triviaToken hc hj) fun seen => ?_
    rw [← Lexer.start_succ hj]
    exact ih (by omega) (by omega)

end Trivia

end Annotate

end CodeLayout
