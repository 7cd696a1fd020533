import CodeLayout.Proofs.Annotate.Cover
import CodeLayout.Proofs.Edit.Apply
import CodeLayout.Proofs.Text.Lines

/-!
# What a pass may change

A pass cuts a source into gaps and texts.  `Relaid` says how the text that it writes differs from
the source: a gap is kept or replaced by line feeds, spaces and tabs, and a text is copied, but the
stars of a block comment may move along their lines.  `Laid` says the same of the pieces one by one.
A pass over items that cover a source succeeds (`render_pieced`) and lays the source out so, unless it
moves texts with syntax problems (`Pieced.laid`).
-/

namespace CodeLayout

open List
open Text (isTabOrSpace sizeOfChars sizeOfChars_append sizeOfChars_toList size_ofList)
open Lexeme (isBlank)

theorem Text.toList_repeated (c : Char) (n : Nat) : (repeated c n).toList = List.replicate n c :=
  String.toList_ofList

namespace Render

/-! ## Comments -/

/-- A text whose lines that start with a star have other blanks in front of it, the first line
aside. -/
inductive Restarred : List Char → List Char → Prop
  | nil : Restarred [] []
  | cons {cs ds : List Char} (c : Char) : Restarred cs ds → Restarred (c :: cs) (c :: ds)
  | star {bs bs' cs ds : List Char} : (∀ c ∈ bs, isTabOrSpace c = true) →
      (∀ c ∈ bs', isTabOrSpace c = true) → Restarred cs ds →
      Restarred ('\n' :: (bs ++ '*' :: cs)) ('\n' :: (bs' ++ '*' :: ds))

namespace Restarred

theorem refl (cs : List Char) : Restarred cs cs := by
  induction cs with
  | nil => exact .nil
  | cons c cs ih => exact .cons c ih

variable {cs ds : List Char}

theorem append {as bs : List Char} (h : Restarred as bs) (h' : Restarred cs ds) :
    Restarred (as ++ cs) (bs ++ ds) := by
  induction h with
  | nil => exact h'
  | cons c _ ih => exact .cons c ih
  | @star bs bs' cs ds hbs hbs' _ ih =>
    simp only [cons_append, append_assoc]
    exact .star hbs hbs' ih

/-- Texts that are `Restarred` differ in blanks only. -/
theorem filter_eq (h : Restarred cs ds) {keep : Char → Bool}
    (hkeep : ∀ c, isTabOrSpace c = true → keep c = false) :
    cs.filter keep = ds.filter keep := by
  have hblank {bs : List Char} (hbs : ∀ c ∈ bs, isTabOrSpace c = true) :
      bs.filter keep = [] :=
    filter_eq_nil_iff.mpr fun c hc => by rw [hkeep c (hbs c hc)]; exact Bool.false_ne_true
  induction h with
  | nil => rfl
  | cons c _ ih => rw [filter_cons, filter_cons, ih]
  | star hbs hbs' _ ih =>
    rw [filter_cons, filter_cons, filter_append, filter_append, hblank hbs,
      hblank hbs', filter_cons, filter_cons, ih]

end Restarred

theorem indentString_blank (style : Style) (n : Nat) :
    ∀ c ∈ (style.indentString n).toList, isTabOrSpace c = true := by
  intro c hc
  unfold Style.indentString at hc
  split at hc
  · rw [Text.toList_repeated] at hc
    rw [eq_of_mem_replicate hc]
    rfl
  · rw [String.toList_append, mem_append, Text.toList_repeated, Text.toList_repeated] at hc
    rcases hc with hc | hc
    · rw [eq_of_mem_replicate hc]
      rfl
    · rw [eq_of_mem_replicate hc]
      rfl

theorem restarred_starLine {indent : List Char} (hindent : ∀ c ∈ indent, isTabOrSpace c = true)
    (line : List Char) : Restarred ('\n' :: line) ('\n' :: starLine indent line) := by
  unfold starLine
  split
  · next rest hrest =>
    conv => lhs; rw [← takeWhile_append_dropWhile (p := isTabOrSpace) (l := line), hrest]
    exact .star (fun c hc => mem_takeWhile_imp hc) hindent (.refl rest)
  · exact .refl _

theorem restarred_reindent (style : Style) (column : Nat) (text : String) :
    Restarred text.toList (reindent style column text).toList := by
  unfold reindent mapTail
  cases hlines : Text.splitLines text.toList with
  | nil => exact absurd hlines (Text.splitLines_ne_nil _)
  | cons line lines =>
    have htext := Text.joinLines_splitLines text.toList
    rw [hlines, Text.joinLines_cons] at htext
    dsimp only
    rw [String.toList_ofList, Text.joinLines_cons, ← htext, flatMap_map]
    refine (Restarred.refl line).append ?_
    clear hlines htext
    induction lines with
    | nil => exact .nil
    | cons l lines ih =>
      rw [flatMap_cons, flatMap_cons]
      exact (restarred_starLine (indentString_blank style _) l).append ih

/-! ## Gaps and texts -/

/-- A gap of a source and the gap that is written for it. -/
structure Regapped (g g' : List Char) : Prop where
  blank : ∀ c ∈ g, isBlank c = true
  kept_or_blank : g' = g ∨ ∀ c ∈ g', c = '\n' ∨ c = ' ' ∨ c = '\t'

/-- A text of a source and the text that is written for it. -/
def Rewritten (kind : ItemKind) (x x' : List Char) : Prop :=
  x' = x ∨ (kind = .blockComment ∨ kind = .docComment) ∧ Restarred x x'

/-- Gaps and the texts of items in turn, in a source and as they are written. -/
inductive Relaid (source : String) : List Item → List Char → List Char → Prop
  | last {g g' : List Char} : Regapped g g' → Relaid source [] g g'
  | text {i : Item} {items : List Item} {g g' x' cs cs' : List Char} : Regapped g g' →
      Rewritten i.kind (i.text source).toList x' → Relaid source items cs cs' →
      Relaid source (i :: items) (g ++ (i.text source).toList ++ cs) (g' ++ x' ++ cs')

/-- The pieces of gaps and of the texts of items in turn. -/
inductive Laid (source : String) : List Item → List Piece → Prop
  | last {p : Piece} : Regapped p.old.toList p.new.toList → Laid source [] [p]
  | text {i : Item} {items : List Item} {p q : Piece} {ps : List Piece} :
      Regapped p.old.toList p.new.toList → q.offset = i.offset → q.length = i.length →
      q.old = i.text source → q.old ≠ "" → Rewritten i.kind q.old.toList q.new.toList →
      Laid source items ps → Laid source (i :: items) (p :: q :: ps)

variable {source : String} {items : List Item} {keep : Char → Bool}

theorem Laid.relaid {ps : List Piece} (h : Laid source items ps) :
    Relaid source items (ps.flatMap (·.old.toList)) (ps.flatMap (·.new.toList)) := by
  induction h with
  | last hgap => simpa using Relaid.last hgap
  | text hgap _ _ hold _ htext _ ih =>
    rw [hold] at htext
    simpa [hold] using Relaid.text hgap htext ih

theorem Regapped.filter_eq {g g' : List Char} (h : Regapped g g')
    (hkeep : ∀ c, isBlank c = true → keep c = false) : g.filter keep = g'.filter keep := by
  have hnil {cs : List Char} (hcs : ∀ c ∈ cs, isBlank c = true) : cs.filter keep = [] :=
    filter_eq_nil_iff.mpr fun c hc => by rw [hkeep c (hcs c hc)]; exact Bool.false_ne_true
  rcases h.kept_or_blank with rfl | hnew
  · rfl
  · rw [hnil h.blank, hnil fun c hc => ?_]
    rcases hnew c hc with rfl | rfl | rfl <;> rfl

theorem Rewritten.filter_eq {kind : ItemKind} {x x' : List Char} (h : Rewritten kind x x')
    (hkeep : ∀ c, isBlank c = true → keep c = false) :
    x.filter keep = x'.filter keep := by
  rcases h with rfl | ⟨-, h⟩
  · rfl
  · exact h.filter_eq fun c hc => hkeep c (Annotate.isBlank_of_isTabOrSpace hc)

/-- Without its blanks, a `Relaid` source is the same. -/
theorem Relaid.filter_eq {cs cs' : List Char} (h : Relaid source items cs cs')
    (hkeep : ∀ c, isBlank c = true → keep c = false) : cs.filter keep = cs'.filter keep := by
  induction h with
  | last hgap => exact hgap.filter_eq hkeep
  | text hgap htext _ ih =>
    simp only [filter_append, hgap.filter_eq hkeep, htext.filter_eq hkeep, ih]

namespace Pass

variable (p : Pass)

theorem spaces_blank (align : Option MemberRef) (n : Nat) :
    ∀ c ∈ (p.spaces align n).toList, c = ' ' ∨ c = '\t' := by
  intro c hc
  unfold spaces at hc
  split at hc
  · rw [Text.toList_repeated] at hc
    exact .inl (eq_of_mem_replicate hc)
  · split at hc
    · rw [Text.toList_repeated] at hc
      exact .inr (eq_of_mem_replicate hc)
    · rw [Text.toList_repeated] at hc
      exact .inl (eq_of_mem_replicate hc)
  · rw [Text.toList_repeated] at hc
    exact .inl (eq_of_mem_replicate hc)

variable {g : List Char}

/-- `gapText` keeps a gap of blanks or replaces it by blanks. -/
theorem regapped_gapText (hg : ∀ c ∈ g, isBlank c = true) (align : Option MemberRef)
    (gap : Gap) :
    Regapped g (p.gapText align (String.ofList g) gap).toList := by
  refine ⟨hg, ?_⟩
  cases gap with
  | kept => exact .inl String.toList_ofList
  | broken lines n =>
    refine .inr fun c hc => ?_
    rw [gapText, String.toList_append, mem_append, Text.toList_repeated] at hc
    rcases hc with hc | hc
    · exact .inl (eq_of_mem_replicate hc)
    · have hblank := indentString_blank p.style n c hc
      rw [isTabOrSpace, Bool.or_eq_true, beq_iff_eq, beq_iff_eq] at hblank
      exact .inr hblank
  | inline n => exact .inr fun c hc => .inr (p.spaces_blank align n c hc)

theorem rewritten_itemText (hmoves : p.movesVerbatim = false) (s : State) (i : Item) :
    Rewritten i.kind (i.text p.source).toList (p.itemText s i).toList := by
  unfold itemText
  dsimp only
  split
  · next hkind => exact .inr ⟨.inl hkind, restarred_reindent _ _ _⟩
  · next hkind => exact .inr ⟨.inr hkind, restarred_reindent _ _ _⟩
  · rw [if_neg (by simp [hmoves])]
    exact .inl rfl
  · exact .inl rfl

/-! ## Passes -/

/-- Where the gap before the items ahead ends. -/
def gapEnd : List Item → Nat
  | next :: _ => next.offset
  | [] => Text.size p.source

/-- What is written for the gap before the items ahead, which starts at an offset. -/
def gapPiece (s : State) (start : Nat) (old : String) (ahead : List Item) : Piece :=
  ⟨start, Text.size old, old, p.gapText s.marks.align old (p.gapBefore s old ahead)⟩

/-- The state after the gap before the items ahead, which starts at an offset. -/
def afterGap (s : State) (start : Nat) (old : String) (ahead : List Item) : State :=
  let gap := p.gapBefore s old ahead
  let moved := { s with lineDelta := p.moved old gap, lineShift := p.lineShift s old gap }
  (moved.write p.style (p.gapPiece s start old ahead)).arrive

/-- What is written for a text. -/
def textPiece (s : State) (i : Item) : Piece :=
  ⟨i.offset, i.length, i.text p.source, p.itemText s i⟩

section AfterGap

variable (s : State) (start : Nat) (old : String) (ahead : List Item)

@[simp] theorem marks_afterGap : (p.afterGap s start old ahead).marks = {} := rfl

@[simp] theorem pieces_afterGap : (p.afterGap s start old ahead).pieces =
    s.pieces.push (p.gapPiece s start old ahead) := by
  unfold afterGap State.arrive State.write State.advance
  dsimp only
  split <;> rfl

end AfterGap

/-- `writeGap` writes the gap before the items ahead if that is a slice of the source. -/
theorem writeGap_eq {s : State} {ahead : List Item} {a cs : List Char}
    (hsource : p.source.toList = a ++ g ++ cs) (hwritten : s.written = sizeOfChars a)
    (hend : p.gapEnd ahead = sizeOfChars a + sizeOfChars g) :
    p.writeGap s ahead = .ok (p.afterGap s (sizeOfChars a) (String.ofList g) ahead) := by
  have hslice := Text.slice?_of_toList hsource
  unfold writeGap
  cases ahead with
  | nil =>
    dsimp only
    rw [hwritten, show Text.size p.source = _ from hend, hslice, Nat.add_sub_cancel_left,
      ← size_ofList g]
    rfl
  | cons next rest =>
    dsimp only
    rw [hwritten, show next.offset = _ from hend, hslice, Nat.add_sub_cancel_left,
      ← size_ofList g]
    rfl

section WriteText

variable (s : State) (i : Item)

@[simp] theorem prev_writeText : (p.writeText s i).prev = some i := by
  unfold writeText State.write State.advance
  dsimp only
  split <;> rfl

@[simp] theorem marks_writeText : (p.writeText s i).marks = s.marks := by
  unfold writeText State.write State.advance
  dsimp only
  split <;> rfl

@[simp] theorem pieces_writeText : (p.writeText s i).pieces = s.pieces.push (p.textPiece s i) := by
  unfold writeText State.write State.advance
  dsimp only
  split <;> rfl

end WriteText

end Pass

section AddMark

variable (s : State) (i : Item)

theorem State.closeMember_spec (m : MemberRef) : (s.closeMember m).prev = s.prev ∧
    (s.closeMember m).pieces = s.pieces ∧ (s.closeMember m).marks = s.marks := by
  unfold closeMember
  split <;> exact ⟨rfl, rfl, rfl⟩

theorem State.addRole_spec (r : Role) (b : Bool) : (s.addRole r b).prev = s.prev ∧
    (s.addRole r b).pieces = s.pieces := by
  unfold addRole
  dsimp only
  split <;> exact ⟨rfl, rfl⟩

/-- `addMark` writes nothing. -/
theorem State.addMark_spec : (s.addMark i).prev = s.prev ∧ (s.addMark i).pieces = s.pieces := by
  unfold addMark
  dsimp only
  split
  · exact ⟨rfl, rfl⟩
  · exact s.addRole_spec _ _
  · exact ⟨rfl, rfl⟩
  · exact ⟨rfl, rfl⟩
  · exact ⟨rfl, rfl⟩
  · next m _ => exact ⟨(s.closeMember_spec m).1, (s.closeMember_spec m).2.1⟩
  · exact ⟨rfl, rfl⟩

end AddMark

namespace Pass

variable {p : Pass} {s : State} {i : Item} {items : List Item} {a g cs : List Char}

variable {x : List Char} {ps : List Piece}

/-- `renderFrom` writes a gap of the source and the text behind it as two pieces, one behind the
other. -/
theorem renderFrom_text (items : List Item) (hsource : p.source.toList = a ++ g ++ (x ++ cs))
    (hwritten : s.written = sizeOfChars a) (hkind : i.kind.isText = true)
    (hoff : i.offset = sizeOfChars (a ++ g)) (hlen : i.length = sizeOfChars x) :
    ∃ s₁ s₂, p.renderFrom s (i :: items) = p.renderFrom s₂ items ∧
      s₂.written = sizeOfChars (a ++ g ++ x) ∧
      s₂.pieces.toList = s.pieces.toList ++
        [p.gapPiece s (sizeOfChars a) (String.ofList g) (i :: items), p.textPiece s₁ i] ∧
      i.text p.source = String.ofList x := by
  rw [sizeOfChars_append] at hoff
  generalize hgap : p.afterGap s (sizeOfChars a) (String.ofList g) (i :: items) = s₁
  have hwrite : p.writeGap s (i :: items) = .ok s₁ := hgap ▸ p.writeGap_eq hsource hwritten hoff
  refine ⟨s₁, p.writeText s₁ i, ?_, ?_, ?_, ?_⟩
  · rw [renderFrom, if_pos hkind, hwrite]
    rfl
  · rw [State.written, prev_writeText]
    show i.offset + i.length = _
    rw [hoff, hlen, sizeOfChars_append, sizeOfChars_append]
  · rw [pieces_writeText, ← hgap, pieces_afterGap, Array.toList_push, Array.toList_push,
      append_assoc]
    rfl
  · rw [Item.text, Item.stop, hoff, hlen, ← sizeOfChars_append]
    exact Text.slice_of_toList (by rw [hsource, append_assoc (a ++ g)])

/-- The pieces of a gap and of the text behind it are `Placed`, with those behind them. -/
theorem placed_text {s₁ : State} {ahead : List Item} (hoff : i.offset = sizeOfChars (a ++ g))
    (hlen : i.length = sizeOfChars x) (htext : i.text p.source = String.ofList x)
    (hplaced : Edit.Placed (sizeOfChars (a ++ g ++ x)) ps) :
    Edit.Placed (sizeOfChars a)
      (p.gapPiece s (sizeOfChars a) (String.ofList g) ahead :: p.textPiece s₁ i :: ps) := by
  refine ⟨rfl, rfl, ?_, ?_, ?_⟩
  · show i.offset = sizeOfChars a + Text.size (String.ofList g)
    rw [size_ofList, hoff, sizeOfChars_append]
  · show i.length = Text.size (i.text p.source)
    rw [htext, size_ofList, hlen]
  · show Edit.Placed (_ + Text.size (String.ofList g) + Text.size (i.text p.source)) ps
    rwa [htext, size_ofList, size_ofList, ← sizeOfChars_append,
      ← sizeOfChars_append]

/-- The pieces that a pass writes for gaps of blanks and for the texts of items in turn. -/
inductive Pieced (p : Pass) : List Item → List Piece → Prop
  | last {s : State} {n : Nat} {g : List Char} : (∀ c ∈ g, isBlank c = true) →
      Pieced p [] [p.gapPiece s n (String.ofList g) []]
  | text {s s₁ : State} {i : Item} {items ahead : List Item} {n : Nat} {g : List Char}
      {ps : List Piece} : (∀ c ∈ g, isBlank c = true) → i.text p.source ≠ "" →
      Pieced p items ps →
      Pieced p (i :: items) (p.gapPiece s n (String.ofList g) ahead :: p.textPiece s₁ i :: ps)

/-- Pieces that are `Pieced` are `Laid`, if texts with syntax problems do not move. -/
theorem Pieced.laid (h : Pieced p items ps) (hmoves : p.movesVerbatim = false) :
    Laid p.source items ps := by
  have hgap {s : State} {n : Nat} {g : List Char} {ahead : List Item}
      (hg : ∀ c ∈ g, isBlank c = true) :
      Regapped (p.gapPiece s n (String.ofList g) ahead).old.toList
        (p.gapPiece s n (String.ofList g) ahead).new.toList := by
    simpa [gapPiece] using p.regapped_gapText hg s.marks.align _
  induction h with
  | last hg => exact .last (hgap hg)
  | @text s s₁ i items ahead n g ps hg hne _ ih =>
    exact .text (hgap hg) rfl rfl rfl hne (p.rewritten_itemText hmoves s₁ i) ih

/-- From the state on, the pass writes the items: pieces from an offset on, with the characters as
their old texts. -/
def Relays (p : Pass) (s : State) (items : List Item) (n : Nat) (cs : List Char) : Prop :=
  ∃ s' ps, p.renderFrom s items = .ok s' ∧ s'.pieces.toList = s.pieces.toList ++ ps ∧
    Edit.Placed n ps ∧ ps.flatMap (·.old.toList) = cs ∧
    Pieced p (items.filter (·.kind.isText)) ps

theorem relays_nil (hsource : p.source.toList = a ++ g) (hg : ∀ c ∈ g, isBlank c = true)
    (hwritten : s.written = sizeOfChars a) :
    p.Relays s [] (sizeOfChars a) g := by
  have hend : p.gapEnd [] = sizeOfChars a + sizeOfChars g := by
    rw [gapEnd, ← sizeOfChars_toList, hsource, sizeOfChars_append]
  have hwrite := p.writeGap_eq (by rw [hsource, append_nil]) hwritten hend
  refine ⟨_, [p.gapPiece s _ (String.ofList g) []], hwrite, ?_, ⟨rfl, rfl, trivial⟩, ?_, .last hg⟩
  · rw [pieces_afterGap, Array.toList_push]
  · simp [gapPiece]

theorem Relays.mark {n : Nat} (hkind : i.kind.isText = false)
    (h : p.Relays (s.addMark i) items n cs) : p.Relays s (i :: items) n cs := by
  obtain ⟨s', ps, hrun, hpieces, hrest⟩ := h
  rw [(s.addMark_spec i).2] at hpieces
  refine ⟨s', ps, ?_, hpieces, ?_⟩
  · rw [renderFrom, if_neg (by simp [hkind])]
    exact hrun
  · rwa [filter_cons_of_neg (by simp [hkind])]

/-- `Relays` at a text, behind a gap that has been read. -/
theorem Relays.text (hne : x ≠ []) (hsource : p.source.toList = a ++ g ++ (x ++ cs))
    (hg : ∀ c ∈ g, isBlank c = true) (hwritten : s.written = sizeOfChars a)
    (hkind : i.kind.isText = true) (hoff : i.offset = sizeOfChars (a ++ g))
    (hlen : i.length = sizeOfChars x) (h : ∀ s', s'.written = sizeOfChars (a ++ g ++ x) →
      p.Relays s' items (sizeOfChars (a ++ g ++ x)) cs) :
    p.Relays s (i :: items) (sizeOfChars a) (g ++ (x ++ cs)) := by
  obtain ⟨s₁, s₂, hstep, hwritten₂, hpieces₂, htext⟩ :=
    renderFrom_text items hsource hwritten hkind hoff hlen
  obtain ⟨s', ps, hrun, hpieces, hplaced, hold, hpieced⟩ := h s₂ hwritten₂
  refine ⟨s', p.gapPiece s (sizeOfChars a) (String.ofList g) (i :: items) ::
    p.textPiece s₁ i :: ps, hstep.trans hrun, ?_, placed_text hoff hlen htext hplaced, ?_, ?_⟩
  · rw [hpieces, hpieces₂, append_assoc]
    rfl
  · simp [gapPiece, textPiece, htext, hold]
  · rw [filter_cons_of_pos (by simpa using hkind)]
    refine .text hg ?_ hpieced
    rw [htext]
    simpa using hne

/-- A pass `Relays` items that cover the rest of a source, behind a gap that has been read. -/
theorem relays_of_covers (hsource : p.source.toList = a ++ g ++ cs) (hg : ∀ c ∈ g, isBlank c = true)
    (hwritten : s.written = sizeOfChars a)
    (hcovers : Covers (sizeOfChars (a ++ g)) items cs) :
    p.Relays s items (sizeOfChars a) (g ++ cs) := by
  induction items generalizing s a g cs with
  | nil =>
    cases hcovers
    rw [append_nil] at hsource ⊢
    exact relays_nil hsource hg hwritten
  | cons i items ih =>
    have hmarked : (s.addMark i).written = sizeOfChars a := by
      rw [State.written, (s.addMark_spec i).1]
      exact hwritten
    cases hcovers with
    | mark hkind _ hrest =>
      refine .mark ?_ (ih hsource hg hmarked hrest)
      simp only [ItemKind.isMark, Bool.and_eq_true, Bool.not_eq_true'] at hkind
      exact hkind.1
    | @piece _ _ _ x cs hfits hoff hlen hrest =>
      rw [← sizeOfChars_append] at hrest
      rcases hfits.2 with htext | ⟨hkind, hblank⟩
      · refine .text hfits.1 hsource hg hwritten htext hoff hlen fun s' hs' => ?_
        rw [← append_assoc] at hsource
        exact ih (g := []) (by rw [hsource, append_nil]) (forall_mem_nil _) hs'
          (by rwa [append_nil])
      · have hnot : i.kind.isText = false := by
          rcases ItemKind.isBlank_eq_true_iff.mp hkind with h | h <;> rw [h] <;> rfl
        rw [← append_assoc] at hsource ⊢
        rw [append_assoc] at hrest
        refine .mark hnot (ih (by rw [hsource]; simp) ?_ hmarked hrest)
        intro c hc
        rcases mem_append.mp hc with hc | hc
        · exact hg c hc
        · exact hblank c hc

end Pass

/-- `render` of items that cover a source succeeds, and its pieces are `Pieced`. -/
theorem Pass.render_pieced {p : Pass} (hcovers : Covers 0 items p.source.toList) :
    ∃ s, p.render items = .ok s ∧ Edit.Placed 0 s.pieces.toList ∧
      s.pieces.toList.flatMap (·.old.toList) = p.source.toList ∧
      Pieced p (items.filter (·.kind.isText)) s.pieces.toList := by
  obtain ⟨s, ps, hrun, hpieces, hrest⟩ := relays_of_covers (s := { base := _ }) (a := []) (g := [])
    rfl nofun rfl hcovers
  rw [Array.toList_empty, nil_append] at hpieces
  rw [← hpieces] at hrest
  exact ⟨s, hrun, hrest⟩

end Render

end CodeLayout
