import CodeLayout.Proofs.Annotate.Declaration
import CodeLayout.Proofs.Grammar.Clean

/-!
# Taking every leaf

A token that no leaf takes is kept as it is, with what follows it.  `Taken c is js s s'` says that none
of the significant tokens `is` is left behind but `js`: if they are the next ones in the state `s`,
then in `s'` those before `js` have been handed out as leaves, and nothing was kept as it is.

What a token becomes is told by `Token.stretches`: it is one piece of its kind, a cast is several.
The pieces that a state has are those of the tokens before its cursor (`Plain`).  Steps that take no
token at all are told by the pieces that they put out (`Puts`).
-/

namespace CodeLayout

open List
open Significant (isSeen)

namespace Significant

variable {ts : List Token} {index : Nat}

/-- The first index that is seen, with the tokens before it and those behind it. -/
theorem seen_eq_cons {i : Nat} {rest : List Nat} (h : seen index ts = i :: rest) :
    index ≤ i ∧ (∀ t ∈ ts.take (i - index), isSeen t = false) ∧
      seen (i + 1) (ts.drop (i + 1 - index)) = rest := by
  induction ts generalizing index with
  | nil => exact absurd h (by simp [seen])
  | cons t ts ih =>
    rw [seen] at h
    split at h
    · next hseen =>
      cases h
      refine ⟨Nat.le_refl _, by simp, ?_⟩
      rw [Nat.add_sub_cancel_left, drop_one, tail_cons]
    · next hseen =>
      obtain ⟨hle, hnone, hrest⟩ := ih h
      refine ⟨by omega, ?_, ?_⟩
      · rw [show i - index = (i - (index + 1)) + 1 by omega, take_succ_cons]
        exact forall_mem_cons.mpr ⟨by simpa using hseen, hnone⟩
      · rw [show i + 1 - index = (i + 1 - (index + 1)) + 1 by omega, drop_succ_cons]
        exact hrest

theorem seen_eq_nil (h : seen index ts = []) : ∀ t ∈ ts, isSeen t = false := by
  induction ts generalizing index with
  | nil => nofun
  | cons t ts ih =>
    rw [seen] at h
    split at h
    · cases h
    · next hseen => exact forall_mem_cons.mpr ⟨by simpa using hseen, ih h⟩

end Significant

/-! ## The pieces of a token -/

/-- A piece of a source: its kind and where it stands. -/
structure Stretch where
  kind : ItemKind
  offset : Nat
  length : Nat
deriving DecidableEq, Repr

/-- The piece that an item is, unless it is a mark. -/
def Item.stretch? (i : Item) : Option Stretch :=
  if i.kind.isMark then none else some ⟨i.kind, i.offset, i.length⟩

/-- The pieces among items. -/
def stretches (items : List Item) : List Stretch := items.filterMap Item.stretch?

/-- The token as one piece. -/
def Token.stretch (kind : ItemKind) (t : Token) : Stretch := ⟨kind, t.start, t.length⟩

/-- The pieces of a cast: its parentheses, its type and the blanks between them. -/
def Token.castStretches (source : String) (t : Token) : List Stretch :=
  let inner := ((t.text source).toList.drop 1).dropLast
  let lead := (inner.takeWhile Text.isTabOrSpace).length
  let type := ((inner.drop lead).takeWhile (!Text.isTabOrSpace ·)).length
  let trail := inner.length - lead - type
  let blanks (offset length : Nat) : List Stretch :=
    if length > 0 then [⟨.blanks, offset, length⟩] else []
  ⟨.text, t.start, 1⟩ :: (blanks (t.start + 1) lead ++
    ⟨.text, t.start + 1 + lead, type⟩ :: (blanks (t.start + 1 + lead + type) trail ++
      [⟨.text, t.stop - 1, 1⟩]))

/-- The pieces of a token that a leaf takes. -/
def Token.leafStretches (source : String) (t : Token) : List Stretch :=
  match t.kind with
  | .cast => t.castStretches source
  | .attributeStart => [t.stretch .attributeStart]
  | .openTagWithEcho => [t.stretch .openTag]
  | _ => [t.stretch .text]

/-- The pieces of a token: trivia stands for itself, and all that the grammar sees is a leaf. -/
def Token.stretches (source : String) (t : Token) : List Stretch :=
  match t.kind with
  | .whitespace =>
    [t.stretch (if Text.hasNewline (t.text source) then .lineBreak else .blanks)]
  | .lineComment | .blockComment | .docComment => [t.stretch (Annotate.commentKind t.kind)]
  | .closeTag => [t.stretch .closeTag]
  | .openTag => [t.stretch .openTag]
  | .inlineHtml => [t.stretch .html]
  | .eof => []
  | _ => t.leafStretches source

variable {source : String} {t : Token}

theorem Token.stretches_of_isSeen (h : isSeen t = true) :
    t.stretches source = t.leafStretches source := by
  unfold isSeen Token.isTrivia TokenKind.isTrivia at h
  unfold Token.stretches
  split <;> first | rfl | simp_all

/-- No token becomes a piece that is kept `verbatim`. -/
theorem Token.kind_ne_verbatim : ∀ p ∈ t.stretches source, p.kind ≠ .verbatim := by
  have hcast : ∀ p ∈ t.castStretches source, p.kind ≠ .verbatim := by
    have hblanks (o l : Nat) : ∀ p ∈ (if l > 0 then [⟨.blanks, o, l⟩] else [] : List Stretch),
        p.kind ≠ .verbatim := by
      split <;> simp
    simp only [Token.castStretches, forall_mem_cons, forall_mem_append]
    exact ⟨nofun, hblanks _ _, nofun, hblanks _ _, nofun, forall_mem_nil _⟩
  have hone {kind : ItemKind} (h : kind ≠ .verbatim) : ∀ p ∈ [t.stretch kind], p.kind ≠ .verbatim :=
    forall_mem_singleton.mpr h
  unfold Token.stretches Token.leafStretches Annotate.commentKind
  split
  · exact hone (by split <;> nofun)
  · exact hone (by split <;> nofun)
  · exact hone (by split <;> nofun)
  · exact hone (by split <;> nofun)
  · exact hone nofun
  · exact hone nofun
  · exact hone nofun
  · nofun
  · split
    · exact hcast
    · exact hone nofun
    · exact hone nofun
    · exact hone nofun

theorem stretches_append (as bs : List Item) : stretches (as ++ bs) = stretches as ++ stretches bs :=
  filterMap_append

theorem stretches_of_marks {items : List Item} (h : ∀ i ∈ items, i.kind.isMark = true) :
    stretches items = [] := by
  refine filterMap_eq_nil_iff.mpr fun i hi => ?_
  rw [Item.stretch?, if_pos (h i hi)]

namespace Annotate

/-- The significant tokens from an index on. -/
def upcoming (c : Context) (n : Nat) : List Nat := Significant.seen n (c.tokens.toList.drop n)

/-- What is queued are marks. -/
def Waiting (s : State) : Prop := ∀ p ∈ s.pending, p.kind.isMark = true

/-- The pieces put out so far are those of the tokens before the cursor. -/
structure Plain (c : Context) (s : State) : Prop where
  pieces : stretches s.items.toList =
    (c.tokens.toList.take s.cursor).flatMap (Token.stretches c.source)
  waiting : Waiting s

/-- The step puts out the pieces, and takes no token. -/
def Puts {α : Type} (c : Context) (ps : List Stretch) (m : Emit α) : Prop :=
  ∀ s a s', Runs c m s a s' → Waiting s →
    stretches s'.items.toList = stretches s.items.toList ++ ps ∧ Waiting s' ∧ s'.cursor = s.cursor

/-- The tokens, which come next, are taken up to those that are left. -/
def Taken (c : Context) (is js : List Nat) (s s' : State) : Prop :=
  Plain c s → ∀ rest, upcoming c s.cursor = is ++ rest →
    Plain c s' ∧ upcoming c s'.cursor = js ++ rest

/-! ## Runs -/

section Runs

variable {α β : Type} {c : Context} {m : Emit α} {f : α → Emit β} {s s₁ s₂ : State}

variable {b : β} {a : α}

theorem Answers.bind_answer (hm : Answers c m a) (hf : Answers c (f a) b) :
    Answers c (m >>= f) b := by
  intro s b' s₂ hrun
  obtain ⟨a', s₁, hrun₁, hrun₂⟩ := hrun.of_bind
  obtain rfl := hm s a' s₁ hrun₁
  exact hf s₁ b' s₂ hrun₂

theorem Answers.kindAt_bind {i : Nat} {f : TokenKind → Emit β}
    (hf : Answers c (f (c.token i).kind) b) : Answers c (kindAt i >>= f) b := hf

end Runs

/-! ## Marks -/

/-- Items that are `Covers` of nothing are marks. -/
theorem isMark_of_covers_nil {n : Nat} {items : List Item} (h : Covers n items []) :
    ∀ i ∈ items, i.kind.isMark = true := by
  generalize hcs : ([] : List Char) = cs at h
  induction h with
  | nil => nofun
  | mark hkind _ _ ih => exact forall_mem_cons.mpr ⟨hkind, ih hcs⟩
  | piece hfits => exact absurd (append_eq_nil_iff.mp hcs.symm).1 hfits.1

/-! ## Steps that take no token -/

namespace Puts

variable {α β : Type} {c : Context} {m m' : Emit α} {f : α → Emit β} {ps qs : List Stretch}

theorem pure {a : α} : Puts c [] (pure a) := by
  intro s a s' hrun hs
  cases hrun
  exact ⟨(append_nil _).symm, hs, rfl⟩

theorem bind (hm : Puts c ps m) (hf : ∀ a, Puts c qs (f a)) : Puts c (ps ++ qs) (m >>= f) := by
  intro s b s₂ hrun hs
  obtain ⟨a, s₁, hrun₁, hrun₂⟩ := hrun.of_bind
  obtain ⟨hps, hs₁, hcursor₁⟩ := hm s a s₁ hrun₁ hs
  obtain ⟨hqs, hs₂, hcursor₂⟩ := hf a s₁ b s₂ hrun₂ hs₁
  refine ⟨?_, hs₂, hcursor₂.trans hcursor₁⟩
  rw [hqs, hps, append_assoc]

/-- A step that `Puts` out nothing may come first. -/
theorem after (hm : Puts c [] m) (hf : ∀ a, Puts c qs (f a)) : Puts c qs (m >>= f) := hm.bind hf

theorem read_bind {f : Context → Emit β} (hf : Puts c qs (f c)) : Puts c qs (read >>= f) := hf

/-- A step that `Puts` out nothing may come last. -/
theorem before (hm : Puts c ps m) (hf : ∀ a, Puts c [] (f a)) : Puts c ps (m >>= f) := by
  have h := hm.bind hf
  rwa [append_nil] at h

variable {b : Prop} {i : Item} {kind : ItemKind}

theorem ite [Decidable b] (hm : Puts c ps m) (hm' : Puts c ps m') :
    Puts c ps (if b then m else m') := by
  split
  · exact hm
  · exact hm'

/-- What `Emits` nothing but marks adds no piece and takes no token. -/
theorem of_emits (hm : Emits c 0 [] m) : Puts c [] m := by
  intro s a s' hrun hs
  obtain ⟨a', s'', hrun', hpush⟩ := hm s hs
  obtain ⟨-, rfl⟩ := hrun.unique hrun'.runs
  obtain ⟨new, hnew, hcovers, -⟩ := hpush.items
  refine ⟨?_, hpush.pending hs, hpush.cursor⟩
  rw [hnew, stretches_append, stretches_of_marks (isMark_of_covers_nil hcovers)]

theorem push (hi : i.kind.isMark = false) : Puts c [⟨i.kind, i.offset, i.length⟩] (push i) := by
  intro s a s' hrun hs
  cases hrun
  refine ⟨?_, hs, rfl⟩
  show stretches (s.items.push i).toList = _
  rw [Array.toList_push, stretches_append]
  simp [stretches, Item.stretch?, hi]

/-- `Puts` with a piece that is put out first. -/
theorem push_bind {f : Unit → Emit β} (hi : i.kind.isMark = false) (hf : ∀ a, Puts c qs (f a)) :
    Puts c (⟨i.kind, i.offset, i.length⟩ :: qs) (Annotate.push i >>= f) := (push hi).bind hf

theorem push_mark {o : Nat} {b : Bool} (hkind : kind.isMark = true) :
    Puts c [] (Annotate.push (.mark kind o b)) :=
  .of_emits (emits_push_mark hkind rfl)

theorem pushToken {t : Token} (hkind : kind.isMark = false) :
    Puts c [t.stretch kind] (pushToken kind t) :=
  .after (.of_emits emits_breakable) fun _ => .push hkind

/-- A piece may be put out under a condition. -/
theorem optional [Decidable b] (hi : i.kind.isMark = false) (hm : Puts c qs m) :
    Puts c ((if b then [⟨i.kind, i.offset, i.length⟩] else []) ++ qs)
      (if b then do Annotate.push i; m else m) := by
  split
  · exact .push_bind hi fun _ => hm
  · exact hm

end Puts

section Trivia

variable {c : Context} {s s' : State} {t : Token}

theorem isMark_commentKind (kind : TokenKind) : (commentKind kind).isMark = false := by
  unfold commentKind
  split <;> rfl

/-- `triviaToken` puts out a token that the grammar does not see as itself. -/
theorem puts_triviaToken {seen : Seen} (ht : isSeen t = false) :
    Puts c (t.stretches c.source) (triviaToken seen t) := by
  have hcomment {seen' : Seen} : Puts c [t.stretch (commentKind t.kind)] (do
      if seen.lineStarted then flushLead seen t.start
      pushToken (commentKind t.kind) t
      return seen') := by
    have hpush : Puts c [t.stretch (commentKind t.kind)] (do
        pushToken (commentKind t.kind) t
        return seen') := .before (.pushToken (isMark_commentKind _)) fun _ => .pure
    exact .ite (.after (.of_emits emits_flushLead) fun _ => hpush) hpush
  unfold triviaToken
  split
  · next hkind =>
    simp only [Token.stretches, hkind]
    refine .read_bind (.before (.pushToken ?_) fun _ => .pure)
    split <;> rfl
  · next hkind => simpa only [Token.stretches, hkind] using hcomment
  · next hkind => simpa only [Token.stretches, hkind] using hcomment
  · next hkind => simpa only [Token.stretches, hkind] using hcomment
  · next hkind =>
    simp only [Token.stretches, hkind]
    refine .after (.of_emits emits_flushLead) fun _ => .after (.of_emits emits_breakable) fun _ => ?_
    exact .after (.push_mark rfl) fun _ => .before (.pushToken rfl) fun _ => .pure
  · next hkind =>
    simp only [Token.stretches, hkind]
    refine .before (.pushToken rfl) fun _ => .after (.of_emits emits_breakable) fun _ => ?_
    exact .after (.push_mark rfl) fun _ => .pure
  · next hkind =>
    simp only [Token.stretches, hkind]
    exact .before (.pushToken rfl) fun _ => .pure
  · next hkind =>
    simp only [Token.stretches, hkind]
    exact .pure
  · -- a token of any other kind is seen
    exfalso
    revert ht
    unfold isSeen Token.isTrivia TokenKind.isTrivia
    split <;> simp_all

variable {ts : List Token} {i : Nat}

theorem puts_foldlM_triviaToken (hts : ∀ t ∈ ts, isSeen t = false) (seen : Seen) :
    Puts c (ts.flatMap (Token.stretches c.source)) (ts.foldlM triviaToken seen) := by
  induction ts generalizing seen with
  | nil => exact .pure
  | cons t ts ih =>
    obtain ⟨ht, hts⟩ := forall_mem_cons.mp hts
    rw [foldlM_cons, flatMap_cons]
    exact .bind (puts_triviaToken ht) fun seen => ih hts seen

/-- `trivia` emits the tokens before an index; if none of them is seen, each stands for itself. -/
theorem Plain.trivia (hs : Plain c s) (h : Runs c (trivia i) s () s')
    (hnone : ∀ t ∈ (c.tokens.extract s.cursor i).toList, isSeen t = false) :
    Plain c s' ∧ s'.cursor = i := by
  obtain ⟨ts, s₁, htake, h⟩ := h.of_bind
  obtain ⟨hi, rfl, rfl⟩ := htake.takeUntil
  have hrest : Puts c ((c.tokens.extract s.cursor i).toList.flatMap (Token.stretches c.source)) (do
      let seen ← (c.tokens.extract s.cursor i).toList.foldlM triviaToken {}
      let here ← offset
      flushLead seen here
      flush false here) := by
    refine .before (puts_foldlM_triviaToken hnone _) fun _ => ?_
    refine .after (.of_emits emits_offset) fun _ => .after (.of_emits emits_flushLead) fun _ => ?_
    exact .of_emits emits_flush
  obtain ⟨hpieces, hwaiting, hcursor⟩ := hrest _ _ _ h hs.waiting
  refine ⟨⟨?_, hwaiting⟩, hcursor⟩
  rw [hpieces, hs.pieces, hcursor, ← flatMap_append, Array.toList_extract,
    extract_eq_take_drop, ← take_add, Nat.add_sub_cancel' hi]

theorem puts_castPieces : Puts c (t.castStretches c.source) (castPieces t) := by
  unfold castPieces Token.castStretches
  refine .read_bind ?_
  dsimp only
  generalize ((t.text c.source).toList.drop 1).dropLast = inner
  generalize (inner.takeWhile Text.isTabOrSpace).length = lead
  generalize ((inner.drop lead).takeWhile (!Text.isTabOrSpace ·)).length = type
  refine .after (.of_emits emits_breakable) fun _ => .push_bind rfl fun _ => ?_
  refine .after (.push_mark rfl) fun _ => .optional rfl (.push_bind rfl fun _ => ?_)
  refine .optional rfl (.after (.push_mark rfl) fun _ => ?_)
  exact .push_bind rfl fun _ => .of_emits (emits_mark rfl)

/-- A token that a `leaf` takes is put out as such. -/
theorem puts_leaf : Puts c (t.leafStretches c.source) (match t.kind with
    | .cast => castPieces t
    | .attributeStart => pushToken .attributeStart t
    | .openTagWithEcho => do
      pushToken .openTag t
      role .afterOpenTag
    | _ => pushToken .text t) := by
  unfold Token.leafStretches
  split
  · exact puts_castPieces
  · exact .pushToken rfl
  · exact .before (.pushToken rfl) fun _ => .of_emits (emits_mark rfl)
  · exact .pushToken rfl

end Trivia

/-! ## Taking -/

namespace Taken

variable {α : Type} {c : Context} {m : Emit α} {is js ks : List Nat} {s s₁ s₂ : State}

theorem refl : Taken c is is s s := fun hs _ hnext => ⟨hs, hnext⟩

theorem trans (h : Taken c is js s s₁) (h' : Taken c js ks s₁ s₂) : Taken c is ks s s₂ := by
  intro hs rest hnext
  obtain ⟨hs₁, hnext₁⟩ := h hs rest hnext
  exact h' hs₁ rest hnext₁

/-- Tokens behind those that are `Taken` stay. -/
theorem frame (h : Taken c is js s s₁) : Taken c (is ++ ks) (js ++ ks) s s₁ := by
  intro hs rest hnext
  rw [append_assoc] at hnext ⊢
  exact h hs (ks ++ rest) hnext

/-- A step that emits nothing but marks takes nothing. -/
theorem of_emits (hm : Emits c 0 [] m) {a : α} (hrun : Runs c m s a s₁) : Taken c is is s s₁ := by
  intro hs rest hnext
  obtain ⟨hpieces, hwaiting, hcursor⟩ := Puts.of_emits hm s a s₁ hrun hs.waiting
  rw [append_nil] at hpieces
  exact ⟨⟨by rw [hpieces, hcursor, hs.pieces], hwaiting⟩, by rw [hcursor, hnext]⟩

/-- `leaf` takes its token; what stands in front of it is not seen. -/
theorem leaf {i : Nat} (hrun : Runs c (leaf i) s () s₁) : Taken c [i] [] s s₁ := by
  intro hs rest hnext
  obtain ⟨⟨⟩, s₂, htrivia, hrun⟩ := hrun.of_bind
  obtain ⟨t, s₃, htake, hrun⟩ := hrun.of_bind
  obtain ⟨hle, hnone, hrest⟩ := Significant.seen_eq_cons hnext
  obtain ⟨hs₂, hcursor₂⟩ := hs.trivia htrivia (by
    rw [Array.toList_extract, extract_eq_take_drop]
    exact hnone)
  obtain ⟨htoken, rfl⟩ := htake.take
  obtain ⟨hpieces, hwaiting, hcursor⟩ := puts_leaf _ () s₁ hrun hs₂.waiting
  have hseen : isSeen t = true := by
    have hmem : i ∈ upcoming c s.cursor := hnext ▸ mem_cons_self
    obtain ⟨-, t', ht', hseen⟩ := Significant.mem_seen hmem
    rw [getElem?_drop, Nat.add_sub_cancel' hle, Array.getElem?_toList, htoken] at ht'
    exact Option.some.inj ht' ▸ hseen
  refine ⟨⟨?_, hwaiting⟩, ?_⟩
  · have hpieces₂ := hs₂.pieces
    rw [hcursor₂] at hpieces₂
    rw [hpieces, hcursor, take_add_one, flatMap_append, Array.getElem?_toList, htoken,
      ← Token.stretches_of_isSeen hseen]
    simp [hpieces₂]
  · -- the cursor stands behind the token, and so do the indices that come next
    rw [drop_drop, show s.cursor + (i + 1 - s.cursor) = i + 1 by omega] at hrest
    rw [hcursor]
    exact hrest

end Taken

/-! ## Rows of children -/

/-- Trees of a bounded height whose nodes are as `Q` says. -/
def Rows (Q : NodeKind → List Tree → Prop) (n : Nat) (ts : List Tree) : Prop :=
  ∀ t ∈ ts, t.height ≤ n ∧ t.Every Q

/-- Trees of a bounded height whose nodes are whole. -/
abbrev Wholes (c : Context) (n : Nat) (ts : List Tree) : Prop :=
  Rows (Tree.Whole (Parsed.kindOf c.tokens)) n ts

namespace Rows

variable {Q : NodeKind → List Tree → Prop} {n : Nat} {t : Tree} {ts us : List Tree}

theorem subset (h : Rows Q n us) (hsub : ts ⊆ us) : Rows Q n ts := fun t ht => h t (hsub ht)

theorem mem (h : Rows Q n ts) (ht : t ∈ ts) : Rows Q n [t] := forall_mem_singleton.mpr (h t ht)

theorem head (h : Rows Q n (t :: ts)) : Rows Q n [t] := h.mem mem_cons_self

theorem tail (h : Rows Q n (t :: ts)) : Rows Q n ts := h.subset (subset_cons_self t ts)

theorem left (h : Rows Q n (ts ++ us)) : Rows Q n ts := h.subset (subset_append_left ts us)

theorem right (h : Rows Q n (ts ++ us)) : Rows Q n us := h.subset (subset_append_right ts us)

/-- `Rows` at a node and at its children, of which the bound of the height is smaller. -/
theorem children {kind : NodeKind} {w : Nat} {cs : List Tree} (h : Rows Q n [.node kind w cs]) :
    Rows Q (n - 1) cs ∧ 0 < n ∧ Q kind cs := by
  obtain ⟨hheight, hwhole⟩ := h _ mem_cons_self
  rw [Tree.Every, Tree.everyAll_iff] at hwhole
  rw [Tree.height] at hheight
  refine ⟨fun t ht => ⟨Row.heightAll_le (by omega) t ht, hwhole.2 t ht⟩, by omega, hwhole.1⟩

theorem mono {k : Nat} (h : Rows Q n ts) (hle : n ≤ k) : Rows Q k ts :=
  fun t ht => ⟨(h t ht).1.trans hle, (h t ht).2⟩

/-- `Rows` may be asked less of the nodes. -/
theorem imp {Q' : NodeKind → List Tree → Prop} (h : Rows Q n ts)
    (hQ : ∀ {kind cs}, Q kind cs → Q' kind cs) : Rows Q' n ts := by
  intro t ht
  obtain ⟨hheight, hevery⟩ := h t ht
  refine ⟨hheight, Tree.every_of_inherited (I := Tree.Every Q) ?_ t hevery⟩
  intro k w cs hnode
  rw [Tree.every_node] at hnode
  exact ⟨hQ hnode.1, hnode.2⟩

end Rows

/-! ## Signs -/

section Signs

variable {c : Context} {test : TokenKind → Bool} {behind : List Tree} {i w : Nat}

/-- `findSign?` finds the first sign. -/
theorem runs_findSign? (front : List Tree)
    (hfront : ∀ j w, .leaf j w ∈ front → test (c.token j).kind = false)
    (hi : test (c.token i).kind = true) (s : State) :
    Runs c (findSign? test (front ++ .leaf i w :: behind)) s (some (front.length, i)) s := by
  refine Runs.bind rfl ?_
  rw [zipIdx_append, findSome?_append, findSome?_eq_none_iff.mpr, Option.none_or,
    zipIdx_cons, findSome?_cons]
  · simp only [Tree.leafIndex?, hi, if_true, Nat.zero_add]
    exact rfl
  · rintro ⟨t, k⟩ hmem
    cases t with
    | leaf j v =>
      have := hfront j v (mem_of_getElem? (mem_zipIdx_iff_getElem?.mp hmem))
      simp only [Tree.leafIndex?, this, Bool.false_eq_true, if_false]
    | node k w cs => rfl

/-- `findLastSign?` finds the last sign, if nothing follows it. -/
theorem runs_findLastSign? (front : List Tree) (hi : test (c.token i).kind = true)
    (s : State) :
    Runs c (findLastSign? test (front ++ [.leaf i w])) s (some (front.length, i)) s := by
  refine Runs.bind rfl ?_
  rw [zipIdx_append, reverse_append, zipIdx_singleton, reverse_singleton,
    singleton_append, findSome?_cons]
  simp only [Tree.leafIndex?, hi, if_true, Nat.zero_add]
  exact rfl

variable {kinds : List TokenKind}

theorem eq_leaf_of_isOneOf {t : Tree} (h : t.IsOneOf (Parsed.kindOf c.tokens) kinds) :
    ∃ i w, t = .leaf i w ∧ (c.token i).kind ∈ kinds := by
  obtain ⟨kind, hmem, hsign⟩ := h
  cases t with
  | leaf i w => exact ⟨i, w, rfl, Option.some.inj hsign ▸ hmem⟩
  | node k w cs => exact hsign.elim

/-- `findSign?` finds the sign that cuts a row. -/
theorem runs_findSign?_of_cut {ts front : List Tree} {sign : Tree}
    (h : Tree.Cut (Parsed.kindOf c.tokens) kinds ts front sign behind) (test : TokenKind → Bool)
    (htest : ∀ k, test k = true ↔ k ∈ kinds) :
    ∃ i w, ts = front ++ .leaf i w :: behind ∧ (c.token i).kind ∈ kinds ∧
      ∀ s, Runs c (findSign? test ts) s (some (front.length, i)) s := by
  obtain ⟨i, w, rfl, hi⟩ := eq_leaf_of_isOneOf h.sign
  refine ⟨i, w, h.eq, hi, fun s => ?_⟩
  rw [h.eq]
  refine runs_findSign? front (fun j v hmem => ?_) ((htest _).mpr hi) s
  rw [Bool.eq_false_iff]
  intro hj
  exact h.front _ hmem ⟨_, (htest _).mp hj, rfl⟩

end Signs

end Annotate

end CodeLayout
