import CodeLayout.Proofs.Annotate.Run
import CodeLayout.Proofs.Token.Edges

/-!
# Items that cover a text

The items of a stream are pieces, which cover the source one after the other, and marks, which cover
nothing.  `Covers n items cs` says so of a row of items from the offset `n` on: its pieces are the
characters `cs`, cut into pieces that are not empty, and its blanks are blanks.

The operations that emit are described by what they append (`Pushes`, `Emits`).

What stands at the ends of a text is followed too: a text starts with no blank, apart from markup,
which has no blanks around it instead, and no item cuts a string or a piece of markup (`Item.Firm`).
-/

namespace CodeLayout

open List
open Text (isTabOrSpace sizeOfChars sizeOfChars_append sizeOfChars_eq_length sizeOfChars_nil)
open Lexer (start start_succ start_add_stretch)

namespace ItemKind

/-- Blanks of the source. -/
def isBlank : ItemKind → Bool
  | blanks | lineBreak => true
  | _ => false

/-- Neither a piece of the source nor blanks of it. -/
def isMark (kind : ItemKind) : Bool := !kind.isText && !kind.isBlank

theorem isBlank_eq_true_iff {kind : ItemKind} :
    kind.isBlank = true ↔ kind = .blanks ∨ kind = .lineBreak := by
  cases kind <;> simp [isBlank]

end ItemKind

/-- An item of the kind may cover the characters. -/
def Fits (kind : ItemKind) (cs : List Char) : Prop :=
  cs ≠ [] ∧ (kind.isText = true ∨ kind.isBlank = true ∧ ∀ c ∈ cs, Lexeme.isBlank c = true)

/-- The items cover the characters from an offset on. -/
inductive Covers : Nat → List Item → List Char → Prop
  | nil {n : Nat} : Covers n [] []
  | mark {n : Nat} {i : Item} {items : List Item} {cs : List Char} : i.kind.isMark = true →
      i.length = 0 → Covers n items cs → Covers n (i :: items) cs
  | piece {n : Nat} {i : Item} {items : List Item} {t cs : List Char} : Fits i.kind t →
      i.offset = n → i.length = sizeOfChars t → Covers (n + sizeOfChars t) items cs →
      Covers n (i :: items) (t ++ cs)

namespace Covers

variable {n : Nat} {as bs : List Item} {cs ds : List Char}

theorem append (ha : Covers n as cs) (hb : Covers (n + sizeOfChars cs) bs ds) :
    Covers n (as ++ bs) (cs ++ ds) := by
  induction ha with
  | nil => simpa using hb
  | mark hkind hlen _ ih => exact .mark hkind hlen (ih hb)
  | piece hfits hoff hlen _ ih =>
    rw [append_assoc]
    refine .piece hfits hoff hlen (ih ?_)
    rw [Nat.add_assoc, ← sizeOfChars_append]
    exact hb

/-- `Covers` nothing with marks. -/
theorem of_marks (h : ∀ i ∈ as, i.kind.isMark = true ∧ i.length = 0) : Covers n as [] := by
  induction as with
  | nil => exact .nil
  | cons i as ih =>
    obtain ⟨hi, has⟩ := forall_mem_cons.mp h
    exact .mark hi.1 hi.2 (ih has)

/-- What `Covers` nothing does so at any offset. -/
theorem of_nil {k : Nat} (h : Covers n as []) : Covers k as [] := by
  generalize hcs : ([] : List Char) = cs at h
  induction h with
  | nil => exact .nil
  | mark hkind hlen _ ih => exact .mark hkind hlen (ih hcs)
  | piece hfits _ _ _ _ => exact absurd (append_eq_nil_iff.mp hcs.symm).1 hfits.1

theorem one {i : Item} (hfits : Fits i.kind cs) (hoff : i.offset = n)
    (hlen : i.length = sizeOfChars cs) : Covers n [i] cs := by
  rw [← append_nil cs]
  exact .piece hfits hoff hlen .nil

end Covers

/-! ## Edges -/

/-- What stands at the ends of a text of the kind, between other characters. -/
structure Edges (kind : ItemKind) (as x cs : List Char) : Prop where
  head : kind ≠ .html → Text.Bare x
  last : kind = .blockComment ∨ kind = .docComment → Text.Bare x.reverse
  around : kind = .html → Text.Bare as.reverse ∧ Text.Bare cs
  sign : kind.isComment = true → ∀ c, x.head? = some c → c = '/' ∨ c = '#'
  lineEnd : kind = .lineComment → ∀ c, cs.head? = some c → Lexeme.endsLine c = true ∨ c = '?'

/-- Strings and markup, every character of which is content. -/
def TokenKind.isLiteral : TokenKind → Bool
  | str | inlineHtml => true
  | _ => false

theorem TokenKind.isLiteral_of_isComment {kind : TokenKind} (h : kind.isComment = true) :
    kind.isLiteral = false := by
  cases kind <;> first | rfl | cases h

/-- A literal that the item meets is all in it, and the item is a text and no comment. -/
def Item.Spares (tokens : Array Token) (i : Item) : Prop :=
  ∀ t ∈ tokens, t.kind.isLiteral = true → 0 < i.length → t.stop ≤ i.offset ∨ i.stop ≤ t.start ∨
    (i.kind.isText = true ∧ i.kind.isComment = false) ∧ i.offset ≤ t.start ∧ t.stop ≤ i.stop

/-- If the item is a text, it is one by what stands at its ends in the source; and it cuts no literal
of the source. -/
structure Item.Firm (source : String) (i : Item) : Prop where
  edges : i.kind.isText = true → ∀ as x cs, source.toList = as ++ x ++ cs →
    i.offset = sizeOfChars as → i.length = sizeOfChars x → Edges i.kind as x cs
  literals : ∀ tokens, tokenize source = .ok tokens → i.Spares tokens

namespace Item.Firm

variable {source : String} {i : Item}

theorem of_not_isText (h : i.kind.isText = false)
    (hliterals : ∀ tokens, tokenize source = .ok tokens → i.Spares tokens) : i.Firm source :=
  ⟨fun htext => absurd htext (by simp [h]), hliterals⟩

theorem of_isMark (h : i.kind.isMark = true) (hlen : i.length = 0) : i.Firm source := by
  simp only [ItemKind.isMark, Bool.and_eq_true, Bool.not_eq_true'] at h
  exact of_not_isText h.1 fun _ _ _ _ _ hpos => absurd hpos (by simp [hlen])

/-- A text is `Firm` by the one place of the source where it stands. -/
theorem of_toList {a x z : List Char} (hsource : source.toList = a ++ x ++ z)
    (hoff : i.offset = sizeOfChars a) (hlen : i.length = sizeOfChars x)
    (h : Edges i.kind a x z)
    (hliterals : ∀ tokens, tokenize source = .ok tokens → i.Spares tokens) : i.Firm source := by
  refine ⟨fun _ a' x' z' hsource' hoff' hlen' => ?_, hliterals⟩
  rw [hsource, append_assoc, append_assoc] at hsource'
  obtain ⟨rfl, hrest⟩ := Text.append_inj_of_size hsource' (hoff.symm.trans hoff')
  obtain ⟨rfl, rfl⟩ := Text.append_inj_of_size hrest (hlen.symm.trans hlen')
  exact h

end Item.Firm

theorem Edges.of_bare {kind : ItemKind} {as x cs : List Char} (hhtml : kind ≠ .html)
    (hcomment : kind.isComment = false) (h : Text.Bare x) : Edges kind as x cs where
  head _ := h
  last hkind := by rcases hkind with rfl | rfl <;> cases hcomment
  around hkind := absurd hkind hhtml
  sign hkind := absurd hkind (by simp [hcomment])
  lineEnd hkind := by subst hkind; cases hcomment

namespace Annotate

/-- The grammar sees the lexeme at the index. -/
def IsLeaf (xs : List Lexeme) (i : Nat) : Prop := ∃ x, xs[i]? = some x ∧ x.kind.isTrivia = false

variable {xs : List Lexeme} {i : Nat} {α : Type} {c : Context} {s : State} {r : Role}
  {b : Bool} {p : Pending}

theorem IsLeaf.lt (h : IsLeaf xs i) : i < xs.length := by
  obtain ⟨x, hx, -⟩ := h
  exact (List.getElem?_eq_some_iff.mp hx).1

theorem IsLeaf.isTrivia (h : IsLeaf xs i) (hi : i < xs.length) : xs[i].kind.isTrivia = false := by
  obtain ⟨x, hx, htrivia⟩ := h
  rwa [(List.getElem?_eq_some_iff.mp hx).2]

theorem isBlank_of_isTabOrSpace {ch : Char} (h : isTabOrSpace ch = true) :
    Lexeme.isBlank ch = true := by
  simp only [isTabOrSpace, Bool.or_eq_true, beq_iff_eq] at h
  rcases h with rfl | rfl <;> decide

/-- The kind of an item goes with that of a lexeme. -/
structure Suits (kind : ItemKind) (token : TokenKind) : Prop where
  text : kind.isText = true
  blank : token ≠ .whitespace
  html : kind = .html ↔ token = .inlineHtml
  comment : kind.isComment = true → token.isComment = true
  line : kind = .lineComment → token = .lineComment
  closed : kind = .blockComment ∨ kind = .docComment → token = .blockComment ∨ token = .docComment

namespace Reading

variable {c : Context} {xs : List Lexeme} {i : Nat}

/-- `Lexes` around the lexeme at an index. -/
theorem lexes_at (hc : Reading c xs) (hi : i < xs.length) :
    Lexer.Lexes .markup (xs.take i ++ xs[i] :: xs.drop (i + 1)) c.source.toList := by
  rw [← drop_eq_getElem_cons hi, take_append_drop]
  exact hc.lexes

theorem bare (hc : Reading c xs) (hi : i < xs.length) (hblank : xs[i].kind ≠ .whitespace)
    (hhtml : xs[i].kind ≠ .inlineHtml) : Text.Bare xs[i].text :=
  (hc.lexes_at hi).bare hblank hhtml

/-- The literals among the tokens are each the `tokenOf` a lexeme. -/
theorem eq_tokenOf (hc : Reading c xs) {tokens : Array Token} (h : tokenize c.source = .ok tokens)
    {t : Token} (ht : t ∈ tokens) (hkind : t.kind.isLiteral = true) :
    ∃ (k : Nat) (hk : k < xs.length), t = tokenOf (start xs k) xs[k] := by
  have hplaced : tokenize c.source = .ok (placed xs) := tokenizeIn_eq_ok_iff.mpr ⟨xs, hc.lexes, rfl⟩
  cases h.symm.trans hplaced
  obtain ⟨k, hget⟩ := Array.mem_iff_getElem?.mp ht
  have hlt := (Array.getElem?_eq_some_iff.mp hget).1
  rw [placed_size] at hlt
  rcases Nat.lt_or_ge k xs.length with hk | hk
  · exact ⟨k, hk, Option.some.inj (hget.symm.trans (placed_getElem? hk))⟩
  · -- the token of the end is no literal
    obtain rfl : k = xs.length := by omega
    cases hget.symm.trans placed_getElem?_end
    cases hkind

variable {item : Item}

/-- An item inside a stretch of lexemes `Spares` the literals, if it is all of the stretch, or there
is none. -/
theorem spares (hc : Reading c xs) {j : Nat} (hlo : start xs i ≤ item.offset)
    (hhi : item.stop ≤ start xs j)
    (hin : ∀ k (hk : k < xs.length), i ≤ k → k < j → xs[k].kind.isLiteral = true →
      (item.kind.isText = true ∧ item.kind.isComment = false) ∧ item.offset = start xs i ∧
        item.stop = start xs j) :
    ∀ tokens, tokenize c.source = .ok tokens → item.Spares tokens := by
  intro tokens htokens t ht hliteral _
  obtain ⟨k, hk, rfl⟩ := hc.eq_tokenOf htokens ht hliteral
  have hstop : (tokenOf (start xs k) xs[k]).stop = start xs (k + 1) :=
    (start_succ hk).symm
  show _ ∨ item.stop ≤ start xs k ∨ _ ∧ item.offset ≤ start xs k ∧ _
  rw [hstop]
  rcases Nat.lt_or_ge k i with hlt | hge
  · refine .inl (Nat.le_trans ?_ hlo)
    have := start_add_stretch xs (i := k + 1) (j := i) hlt
    omega
  rcases Nat.lt_or_ge k j with hlt | hge'
  · obtain ⟨hkind, hoffset, hend⟩ := hin k hk hge hlt hliteral
    have hfirst := start_add_stretch xs hge
    have hlast := start_add_stretch xs (i := k + 1) (j := j) hlt
    exact .inr (.inr ⟨hkind, by omega, by omega⟩)
  · refine .inr (.inl (Nat.le_trans hhi ?_))
    have := start_add_stretch xs hge'
    omega

/-- An item inside a lexeme that is no literal `Spares` the literals. -/
theorem spares_inside (hc : Reading c xs) (hi : i < xs.length)
    (hkind : xs[i].kind.isLiteral = false) (hlo : start xs i ≤ item.offset)
    (hhi : item.stop ≤ start xs (i + 1)) :
    ∀ tokens, tokenize c.source = .ok tokens → item.Spares tokens := by
  refine hc.spares hlo hhi fun k hk hik hki hliteral => ?_
  obtain rfl : k = i := by omega
  rw [hkind] at hliteral
  cases hliteral

/-- A lexeme is `Firm` as an item of a kind that `Suits` its own. -/
theorem firm (hc : Reading c xs) (hi : i < xs.length) {kind : ItemKind} {b : Bool}
    (h : Suits kind xs[i].kind) :
    Item.Firm c.source ⟨kind, start xs i, sizeOfChars xs[i].text, b⟩ := by
  have hstop : start xs i + sizeOfChars xs[i].text = start xs (i + 1) :=
    (start_succ hi).symm
  have hmem : xs[i] ∈ xs := getElem_mem hi
  refine .of_toList (toList_eq_of_lexes hc.lexes hi) rfl rfl ⟨?_, ?_, ?_, ?_, ?_⟩ ?_
  · exact fun hkind => hc.bare hi h.blank (fun hhtml => hkind (h.html.mpr hhtml))
  · exact fun hkind => hc.lexes.bare_reverse hmem (h.closed hkind)
  · exact fun hkind => (hc.lexes_at hi).html_edges (h.html.mp hkind)
  · exact fun hkind ch hch => hc.lexes.head_comment hmem (h.comment hkind) hch
  · exact fun hkind ch hch => (hc.lexes_at hi).head_behind_lineComment (h.line hkind) hch
  · refine hc.spares (Nat.le_refl _) hstop.le fun k hk hik hki hliteral => ?_
    obtain rfl : k = i := by omega
    refine ⟨⟨h.text, Bool.eq_false_iff.mpr fun hkind => ?_⟩, rfl, hstop⟩
    rw [TokenKind.isLiteral_of_isComment (h.comment hkind)] at hliteral
    cases hliteral

end Reading

/-! ## What a step appends -/

/-- All that waits in the queue are marks. -/
def State.QueuesMarks (s : State) : Prop := ∀ p ∈ s.pending, p.kind.isMark = true

/-- From a state to another, items that cover the characters from the offset on were appended. -/
structure Pushes (c : Context) (s s' : State) (n : Nat) (cs : List Char) : Prop where
  cursor : s'.cursor = s.cursor
  items : ∃ new, s'.items.toList = s.items.toList ++ new ∧ Covers n new cs ∧
    ∀ i ∈ new, i.Firm c.source
  pending : s.QueuesMarks → s'.QueuesMarks

namespace Pushes

variable {c : Context} {s s₁ s₂ : State} {n : Nat} {cs ds : List Char}

theorem refl : Pushes c s s n [] := ⟨rfl, ⟨[], by simp, .nil, by simp⟩, id⟩

theorem trans (h₁ : Pushes c s s₁ n cs) (h₂ : Pushes c s₁ s₂ (n + sizeOfChars cs) ds) :
    Pushes c s s₂ n (cs ++ ds) := by
  obtain ⟨as, has, hcs, hfirm⟩ := h₁.items
  obtain ⟨bs, hbs, hds, hfirm'⟩ := h₂.items
  refine ⟨h₂.cursor.trans h₁.cursor, ⟨as ++ bs, ?_, hcs.append hds, ?_⟩, ?_⟩
  · rw [hbs, has, append_assoc]
  · exact forall_mem_append.mpr ⟨hfirm, hfirm'⟩
  · exact fun h => h₂.pending (h₁.pending h)

variable {i : Item}

/-- `Pushes` with an item that is a mark. -/
theorem push_mark (hkind : i.kind.isMark = true) (hlen : i.length = 0) :
    Pushes c s { s with items := s.items.push i } n [] :=
  ⟨rfl, ⟨[i], by simp, .mark hkind hlen .nil, by simpa using .of_isMark hkind hlen⟩, id⟩

/-- `Pushes` with an item that is a piece. -/
theorem push_piece (hfits : Fits i.kind cs) (hlen : i.length = sizeOfChars cs)
    (hfirm : i.Firm c.source) :
    Pushes c s { s with items := s.items.push i } i.offset cs :=
  ⟨rfl, ⟨[i], by simp, .one hfits rfl hlen, by simpa using hfirm⟩, id⟩

end Pushes

/-- The step appends items that cover the characters from the offset on. -/
def Emits {α : Type} (c : Context) (n : Nat) (cs : List Char) (m : Emit α) : Prop :=
  ∀ s, s.QueuesMarks → ∃ a s', Goes c m s a s' ∧ Pushes c s s' n cs

namespace Emits

variable {α β : Type} {c : Context} {n : Nat} {cs ds : List Char} {m : Emit α} {f : α → Emit β}

theorem pure {a : α} : Emits c n [] (pure a : Emit α) := fun s _ => ⟨a, s, .pure a, .refl⟩

theorem bind (hm : Emits c n cs m) (hf : ∀ a, Emits c (n + sizeOfChars cs) ds (f a)) :
    Emits c n (cs ++ ds) (m >>= f) := by
  intro s hs
  obtain ⟨a, s₁, hrun₁, hpush₁⟩ := hm s hs
  obtain ⟨b, s₂, hrun₂, hpush₂⟩ := hf a s₁ (hpush₁.pending hs)
  exact ⟨b, s₂, hrun₁.bind hrun₂, hpush₁.trans hpush₂⟩

/-- A step that `Emits` only marks may come first. -/
theorem mark_bind (hm : Emits c n [] m) (hf : ∀ a, Emits c n ds (f a)) :
    Emits c n ds (m >>= f) := hm.bind hf

/-- A step that `Emits` only marks may come last. -/
theorem bind_mark (hm : Emits c n cs m) (hf : ∀ a k, Emits c k [] (f a)) :
    Emits c n cs (m >>= f) := by
  have := hm.bind fun a => hf a _
  rwa [append_nil] at this

theorem ite {b : Prop} [Decidable b] {m' : Emit α} (hm : Emits c n cs m) (hm' : Emits c n cs m') :
    Emits c n cs (if b then m else m') := by
  split
  · exact hm
  · exact hm'

/-- A step that only looks `Emits` nothing. -/
theorem of_look (hm : ∀ s, ∃ a, Runs c m s a s)
    (hblind : ∀ margin, m (c.withMargin margin) = m c) : Emits c n [] m := by
  intro s _
  obtain ⟨a, ha⟩ := hm s
  exact ⟨a, s, ha.goes hblind, .refl⟩

/-- `Emits` where the source, the tokens and the style are known. -/
theorem read_bind {f : Context → Emit β} (hblind : ∀ margin, f (c.withMargin margin) = f c)
    (hf : Emits c n cs (f c)) : Emits c n cs (read >>= f) := by
  intro s hs
  obtain ⟨a, s', hrun, hpush⟩ := hf s hs
  refine ⟨a, s', fun margin => .bind rfl ?_, hpush⟩
  rw [hblind]
  exact hrun margin

end Emits

section Primitives

variable {c : Context} {n : Nat}

variable {i o : Nat} {cs : List Char} {kind : ItemKind} {r : Role}

theorem emits_offset : Emits c n [] offset := .of_look (fun _ => ⟨_, rfl⟩) fun _ => rfl

theorem emits_breakable : Emits c n [] breakable := .of_look (fun _ => ⟨_, rfl⟩) fun _ => rfl

theorem emits_push_mark {i : Item} (hkind : i.kind.isMark = true) (hlen : i.length = 0) :
    Emits c n [] (push i) := fun _ _ => ⟨(), _, fun _ => rfl, .push_mark hkind hlen⟩

theorem emits_push_piece {i : Item} (hfits : Fits i.kind cs) (hlen : i.length = sizeOfChars cs)
    (hfirm : i.Firm c.source) :
    Emits c i.offset cs (push i) :=
  fun _ _ => ⟨(), _, fun _ => rfl, .push_piece hfits hlen hfirm⟩

/-- `Emits` blanks that may be empty, and are left out then. -/
theorem emits_optional_piece {α : Type} {b : Bool} {ds : List Char} {k : Emit α}
    (hfits : cs ≠ [] → Fits kind cs) (hlen : sizeOfChars cs = cs.length)
    (hfirm : Item.Firm c.source ⟨kind, n, cs.length, b⟩) (hk : Emits c (n + cs.length) ds k) :
    Emits c n (cs ++ ds)
      (if cs.length > 0 then do push ⟨kind, n, cs.length, b⟩; k else k) := by
  rw [← hlen] at hk
  split
  · next hpos =>
    have hfits := hfits (ne_nil_of_length_pos hpos)
    exact (emits_push_piece (i := ⟨kind, n, cs.length, b⟩) hfits hlen.symm hfirm).bind fun _ => hk
  · next hpos =>
    obtain rfl : cs = [] := eq_nil_of_length_eq_zero (by omega)
    exact hk

theorem emits_mark (hkind : kind.isMark = true) : Emits c n [] (mark kind) := by
  refine .mark_bind emits_offset fun _ => .mark_bind emits_breakable fun _ => ?_
  exact emits_push_mark hkind rfl

/-- `queue` puts a mark off. -/
theorem emits_queue {lead : Bool} (hkind : kind.isMark = true) : Emits c n [] (queue kind lead) := by
  refine .mark_bind emits_breakable fun b s hs =>
    ⟨(), _, fun _ => rfl, rfl, ⟨[], by simp, .nil, by simp⟩, ?_⟩
  intro hs p hp
  rcases mem_append.mp hp with hp | hp
  · exact hs p hp
  · rw [mem_singleton.mp hp]
    exact hkind

/-- `flush` emits queued marks at an offset. -/
theorem emits_flush {lead : Bool} : Emits c n [] (flush lead o) := by
  intro s hs
  have hpart : s.pending.partition (·.lead == lead) = _ := partition_eq_filter_filter
  refine ⟨(), { s with
    pending := (s.pending.partition (·.lead == lead)).2
    items := s.items ++ ((s.pending.partition (·.lead == lead)).1.map fun p =>
      Item.mark p.kind o p.breakable).toArray }, fun _ => rfl,
    rfl, ⟨_, Array.toList_append, .of_marks ?_, ?_⟩, ?_⟩
  · intro i hi
    rw [hpart] at hi
    obtain ⟨p, hp, rfl⟩ := mem_map.mp hi
    exact ⟨hs p (mem_of_mem_filter hp), rfl⟩
  · intro i hi
    rw [hpart] at hi
    obtain ⟨p, hp, rfl⟩ := mem_map.mp hi
    exact .of_isMark (hs p (mem_of_mem_filter hp)) rfl
  · intro hmarks p hp
    rw [hpart] at hp
    exact hmarks p (mem_of_mem_filter hp)

theorem emits_flushLead {seen : Seen} : Emits c n [] (flushLead seen o) :=
  .ite emits_flush .pure

theorem emits_pushToken {t : Token} (hfits : Fits kind cs) (hlen : t.length = sizeOfChars cs)
    (hfirm : ∀ b, Item.Firm c.source ⟨kind, t.start, t.length, b⟩) :
    Emits c t.start cs (pushToken kind t) := by
  refine .mark_bind emits_breakable fun b => ?_
  exact emits_push_piece (i := ⟨kind, t.start, t.length, b⟩) hfits hlen (hfirm b)

end Primitives

/-! ## Tokens of a text -/

section Tokens

variable {c : Context} {xs : List Lexeme}

theorem fits_text {kind : ItemKind} {cs : List Char} (hne : cs ≠ []) (hkind : kind.isText = true) :
    Fits kind cs := ⟨hne, .inl hkind⟩

theorem commentKind_isText (kind : TokenKind) : (commentKind kind).isText = true := by
  unfold commentKind
  split <;> rfl

/-- `commentKind` is of the sort that the comment is. -/
theorem suits_commentKind {kind : TokenKind} (h : kind.isComment = true) :
    Suits (commentKind kind) kind := by
  refine ⟨commentKind_isText kind, ?_, ?_, fun _ => h, ?_, ?_⟩
  all_goals cases kind <;> simp [TokenKind.isComment, commentKind] at h ⊢

variable {i j : Nat}

/-- `triviaToken` emits a token in front of a leaf whole. -/
theorem emits_triviaToken (hc : Reading c xs) (hi : i < xs.length) {seen : Seen} :
    Emits c (start xs i) xs[i].text
      (triviaToken seen (tokenOf (start xs i) xs[i])) := by
  have hmem : xs[i] ∈ xs := getElem_mem hi
  have hne := hc.lexes.text_ne_nil _ hmem
  have hpiece {kind : ItemKind} (h : Suits kind xs[i].kind) :
      Emits c (start xs i) xs[i].text (pushToken kind (tokenOf (start xs i) xs[i])) :=
    emits_pushToken (t := tokenOf (start xs i) xs[i]) (fits_text hne h.text) rfl fun _ => hc.firm hi h
  have hcomment {seen' : Seen} (hkind : xs[i].kind.isComment = true) :
      Emits c (start xs i) xs[i].text (do
        if seen.lineStarted then flushLead seen (start xs i)
        pushToken (commentKind xs[i].kind) (tokenOf (start xs i) xs[i])
        return seen') := by
    have hpush := (hpiece (suits_commentKind hkind)).bind_mark fun _ _ => .pure (a := seen')
    exact .ite (.mark_bind emits_flushLead fun _ => hpush) hpush
  unfold triviaToken
  split
  · next hkind =>
    refine .read_bind (fun _ => rfl) (.bind_mark ?_ fun _ _ => .pure)
    refine emits_pushToken (t := tokenOf (start xs i) xs[i])
      ⟨hne, .inr ⟨?_, hc.lexes.blank hmem hkind⟩⟩ rfl fun _ => .of_not_isText ?_ ?_
    · split <;> rfl
    · dsimp only
      split <;> rfl
    · refine hc.spares_inside hi ?_ (Nat.le_refl _) (start_succ hi).ge
      rw [show xs[i].kind = _ from hkind]
      rfl
  · next hkind => exact hcomment (by rw [show xs[i].kind = _ from hkind]; rfl)
  · next hkind => exact hcomment (by rw [show xs[i].kind = _ from hkind]; rfl)
  · next hkind => exact hcomment (by rw [show xs[i].kind = _ from hkind]; rfl)
  · next hkind =>
    have hk : xs[i].kind = .closeTag := hkind
    refine .mark_bind emits_flushLead fun _ => .mark_bind emits_breakable fun _ => ?_
    refine .mark_bind (emits_push_mark rfl rfl) fun _ => ?_
    exact .bind_mark (hpiece ⟨rfl, by simp [hk], by simp [hk], nofun, nofun, by simp⟩) fun _ _ => .pure
  · next hkind =>
    have hk : xs[i].kind = .openTag := hkind
    refine .bind_mark (hpiece ⟨rfl, by simp [hk], by simp [hk], nofun, nofun, by simp⟩) fun _ _ => ?_
    refine .mark_bind emits_breakable fun _ => ?_
    exact .mark_bind (emits_push_mark rfl rfl) fun _ => .pure
  · next hkind =>
    have hk : xs[i].kind = .inlineHtml := hkind
    exact .bind_mark (hpiece ⟨rfl, by simp [hk], by simp [hk], nofun, nofun, by simp⟩) fun _ _ => .pure
  · next hkind => exact absurd hkind (hc.lexes.kind_ne_eof _ hmem)
  · next hblank _ _ _ _ _ hhtml _ =>
    have hnot : xs[i].kind ≠ .inlineHtml := hhtml
    exact .bind_mark (hpiece ⟨rfl, hblank, by simp [hnot], nofun, nofun, by simp⟩) fun _ _ => .pure

/-- The first lexeme of a stretch. -/
theorem drop_take_cons (hij : i < j) (hi : i < xs.length) :
    (xs.take j).drop i = xs[i] :: (xs.take j).drop (i + 1) := by
  rw [drop_eq_getElem_cons (by rw [length_take]; omega), getElem_take]

/-- `triviaToken` emits tokens in front of a leaf one after the other. -/
theorem emits_foldlM_triviaToken (hc : Reading c xs) (hij : i ≤ j) (hj : j ≤ xs.length)
    (seen : Seen) :
    Emits c (start xs i) (((xs.take j).drop i).flatMap Lexeme.text)
      ((Lexer.place (start xs i) ((xs.take j).drop i)).foldlM triviaToken seen) := by
  induction hk : j - i generalizing i seen with
  | zero =>
    rw [drop_of_length_le (by rw [length_take]; omega)]
    exact .pure
  | succ k ih =>
    have hi : i < xs.length := by omega
    rw [drop_take_cons (by omega) hi, Lexer.place, foldlM_cons, flatMap_cons]
    refine (emits_triviaToken hc hi).bind fun seen => ?_
    rw [← start_succ hi]
    exact ih (by omega) seen (by omega)

theorem emits_triviaToken_eof {n o : Nat} {seen : Seen} :
    Emits c n [] (triviaToken seen ⟨.eof, o, 0⟩) := .pure

end Tokens

end Annotate

end CodeLayout
