import CodeLayout.Proofs.Format.Content
import CodeLayout.Word

/-!
# The edits of any stream

A stream need not belong to the text that it is rendered into.  A pass looks at a text only where it
writes a gap, and refuses a gap that is no slice; so what it does not refuse is cut into pieces that
make up the text (`render_pieces`), whose edits apply.
-/

namespace CodeLayout

namespace Item

/-- The offset right after the piece, as a machine word. -/
def stopWord (i : Item) : Nat := Word.add i.offset i.length

/-- From an offset on, the texts can be found in a source one behind the other, each one up to its
`stop`: what stands between them is a slice of the source, up to its end. -/
def follow (stop : Item → Nat) (source : String) (start : Nat) : List Item → Bool
  | [] => (Text.slice? source start (Text.size source)).isSome
  | i :: rest =>
    if i.kind.isText then (Text.slice? source start i.offset).isSome && follow stop source (stop i) rest
    else follow stop source start rest

theorem follow_congr {stop stop' : Item → Nat} {source : String} {items : List Item}
    (h : ∀ i ∈ items, i.kind.isText = true → stop i = stop' i) (start : Nat) :
    follow stop source start items = follow stop' source start items := by
  induction items generalizing start with
  | nil => rfl
  | cons i items ih =>
    obtain ⟨hi, hitems⟩ := List.forall_mem_cons.mp h
    rw [follow, follow]
    exact ite_congr rfl (fun hkind => by rw [hi hkind, ih hitems]) fun _ => ih hitems start

/-- By `follow`, texts can only follow each other from a boundary on. -/
theorem exists_toList_of_follow {source : String} {start : Nat} {items : List Item}
    (h : follow stop source start items = true) :
    ∃ as cs, source.toList = as ++ cs ∧ start = Text.sizeOfChars as := by
  have hstart {stop : Nat} (hslice : (Text.slice? source start stop).isSome = true) :
      ∃ as cs, source.toList = as ++ cs ∧ start = Text.sizeOfChars as := by
    obtain ⟨a, g, cs, hsource, ha, -⟩ := Text.exists_toList_of_slice? hslice
    exact ⟨a, g ++ cs, by rw [hsource, List.append_assoc], ha⟩
  induction items with
  | nil => exact hstart h
  | cons i items ih =>
    rw [follow] at h
    split at h
    · exact hstart (Bool.and_eq_true_iff.mp h).1
    · exact ih h

end Item

namespace Render.Pass

variable {p : Pass}

/-- `writeGap` refuses a gap that is no slice. -/
theorem writeGap_eq_error {s : State} (ahead : List Item)
    (h : ¬ (Text.slice? p.source s.written (p.gapEnd ahead)).isSome = true) :
    ∃ index offset after, p.writeGap s ahead = .error (.outOfOrder index offset after) := by
  rw [Bool.not_eq_true, Option.isSome_eq_false_iff, Option.isNone_iff_eq_none] at h
  refine ⟨s.index, p.gapEnd ahead, s.written, ?_⟩
  cases ahead <;>
  · rw [gapEnd] at h ⊢
    rw [writeGap]
    dsimp only
    rw [h]

theorem written_addMark (s : State) (i : Item) : (s.addMark i).written = s.written := by
  rw [State.written, (s.addMark_spec i).1, State.written]

/-- `renderFrom` writes texts that `follow` each other, and the pieces make up the rest of the
source. -/
theorem renderFrom_pieces (items : List Item) (s : State)
    (hfollow : Item.follow Item.stop p.source s.written items = true) :
    ∃ s' ps as, p.renderFrom s items = .ok s' ∧ s'.pieces.toList = s.pieces.toList ++ ps ∧
      Text.sizeOfChars as = s.written ∧ Edit.Placed s.written ps ∧
      p.source.toList = as ++ ps.flatMap (·.old.toList) := by
  induction items generalizing s with
  | nil =>
    -- the last gap reaches to the end of the source
    obtain ⟨a, g, cs, hsource, ha, hend⟩ := Text.exists_toList_of_slice? hfollow
    rw [Text.sizeOfChars_append] at hend
    have hcs : cs = [] := by
      have hsize := congrArg Text.sizeOfChars hsource
      simp only [Text.sizeOfChars_append, Text.sizeOfChars_toList] at hsize
      by_contra hne
      have := Text.sizeOfChars_pos hne
      omega
    rw [hcs] at hsource
    refine ⟨_, [p.gapPiece s (Text.sizeOfChars a) (String.ofList g) []], a,
      p.writeGap_eq hsource ha hend, ?_, ha.symm, ?_, ?_⟩
    · rw [pieces_afterGap, Array.toList_push]
    · rw [ha]
      exact ⟨rfl, rfl, trivial⟩
    · simp [gapPiece, hsource]
  | cons i items ih =>
    rw [Item.follow] at hfollow
    by_cases hkind : i.kind.isText = true
    · rw [if_pos hkind, Bool.and_eq_true] at hfollow
      obtain ⟨a, g, cs, hsource, ha, hoff⟩ := Text.exists_toList_of_slice? hfollow.1
      -- the text ends at a boundary because something follows it
      obtain ⟨as, ds, hsource', hstop⟩ := Item.exists_toList_of_follow hfollow.2
      obtain ⟨x, rfl, rfl⟩ := Text.append_split_of_size_le (hsource.symm.trans hsource')
        (by rw [← hoff, ← hstop]; exact Nat.le_add_right _ _)
      have hlen : i.length = Text.sizeOfChars x := by
        rw [Item.stop, Text.sizeOfChars_append (a ++ g)] at hstop
        omega
      obtain ⟨s₁, s₂, hstep, hwritten, hpieces, htext⟩ :=
        renderFrom_text items hsource ha hkind hoff hlen
      rw [hstop, ← hwritten] at hfollow
      obtain ⟨s', ps, as, hrun, hpieces', has, hplaced, hold⟩ := ih s₂ hfollow.2
      rw [hwritten] at has hplaced
      obtain ⟨rfl, hds⟩ := Text.append_inj_of_size (hold.symm.trans hsource') has
      refine ⟨s', p.gapPiece s (Text.sizeOfChars a) (String.ofList g) (i :: items) ::
        p.textPiece s₁ i :: ps, a, hstep.trans hrun, ?_, ha.symm, ?_, ?_⟩
      · rw [hpieces', hpieces, List.append_assoc]
        rfl
      · rw [ha]
        exact placed_text hoff hlen htext hplaced
      · simp [gapPiece, textPiece, htext, hold]
    · rw [if_neg hkind, ← written_addMark s i] at hfollow
      obtain ⟨s', ps, as, hrun, hrest⟩ := ih (s.addMark i) hfollow
      rw [written_addMark, (s.addMark_spec i).2] at hrest
      refine ⟨s', ps, as, ?_, hrest⟩
      rw [renderFrom, if_neg hkind]
      exact hrun

/-- `renderFrom` refuses texts that do not `follow` each other. -/
theorem renderFrom_eq_error (items : List Item) (s : State)
    (hfollow : ¬ Item.follow Item.stop p.source s.written items = true) :
    ∃ index offset after, p.renderFrom s items = .error (.outOfOrder index offset after) := by
  induction items generalizing s with
  | nil => exact writeGap_eq_error [] hfollow
  | cons i items ih =>
    rw [Item.follow] at hfollow
    by_cases hkind : i.kind.isText = true
    · rw [if_pos hkind, Bool.and_eq_true] at hfollow
      rw [renderFrom, if_pos hkind]
      -- the gap before this text is refused, or something behind it
      by_cases hslice : (Text.slice? p.source s.written i.offset).isSome = true
      · obtain ⟨a, g, cs, hsource, ha, hoff⟩ := Text.exists_toList_of_slice? hslice
        rw [Text.sizeOfChars_append] at hoff
        have hend : p.gapEnd (i :: items) = Text.sizeOfChars a + Text.sizeOfChars g := hoff
        rw [p.writeGap_eq hsource ha hend]
        refine ih _ fun hrest => hfollow ⟨hslice, ?_⟩
        rwa [State.written, prev_writeText] at hrest
      · obtain ⟨index, offset, after, herror⟩ := writeGap_eq_error (i :: items) hslice
        exact ⟨index, offset, after, by rw [herror]; rfl⟩
    · rw [if_neg hkind, ← written_addMark s i] at hfollow
      rw [renderFrom, if_neg hkind]
      exact ih (s.addMark i) hfollow

end Render.Pass

namespace ItemStream

/-- The texts of a stream, each one up to its `stop`, can be found in a source one behind the other.
-/
def fits (stream : ItemStream) (stop : Item → Nat) (source : String) : Bool :=
  Item.follow stop source 0 stream.items.toList

variable {stream : ItemStream} {source : String}

/-- `render` cuts a source that the stream `fits` into pieces. -/
theorem render_pieces (h : stream.fits Item.stop source = true) (style : Style) (ranged : Bool) :
    ∃ s, stream.render style source ranged = .ok s ∧ Edit.Placed 0 s.pieces.toList ∧
      source.toList = s.pieces.toList.flatMap (·.old.toList) := by
  have hrender (padding : MemberRef → Option Padding) :
      ∃ s, { stream.measuringPass style source ranged with padding }.render stream.items.toList =
        .ok s ∧ Edit.Placed 0 s.pieces.toList ∧
        source.toList = s.pieces.toList.flatMap (·.old.toList) := by
    obtain ⟨s, ps, as, hrun, hpieces, has, hplaced, hsource⟩ := Render.Pass.renderFrom_pieces
      (p := { stream.measuringPass style source ranged with padding }) stream.items.toList
      { base := style.indent.initialIndent } h
    obtain rfl : as = [] := by
      by_contra hne
      exact (Text.sizeOfChars_pos hne).ne' has
    rw [Array.toList_empty, List.nil_append] at hpieces
    rw [← hpieces] at hplaced hsource
    exact ⟨s, hrun, hplaced, hsource⟩
  obtain ⟨first, hfirst, -⟩ := hrender fun _ => none
  obtain ⟨final, hfinal, hrest⟩ :=
    hrender fun m => (stream.measured first.measures).padding? m style
  refine ⟨final, ?_, hrest⟩
  unfold render
  dsimp only
  rw [show (stream.measuringPass style source ranged).render _ = .ok first from hfirst]
  exact hfinal

/-- `render` refuses a source that the stream does not fit (`fits`). -/
theorem render_eq_error (h : ¬ stream.fits Item.stop source = true) (style : Style) (ranged : Bool) :
    ∃ index offset after,
      stream.render style source ranged = .error (.outOfOrder index offset after) := by
  obtain ⟨index, offset, after, herror⟩ := Render.Pass.renderFrom_eq_error
    (p := stream.measuringPass style source ranged) stream.items.toList
    { base := style.indent.initialIndent } h
  refine ⟨index, offset, after, ?_⟩
  unfold render
  dsimp only
  rw [show (stream.measuringPass style source ranged).render _ = _ from herror]
  rfl

/-- Whatever the stream and the text it is laid out in, as long as the ends of its texts are machine
words, the answer is a list of edits that apply, or the text of the stream that is out of order.  The
edits are in order, do not overlap, and replace stretches between boundaries; the range and the
template do not matter.  A stream is refused only if its texts cannot be found in the text one behind
the other (`fits`). -/
theorem edits_applicable (stream : ItemStream) (style : Style) (source : String)
    (range template : Option Span)
    (hwords : ∀ i ∈ stream.items.toList, i.kind.isText = true → i.offset + i.length < Word.limit) :
    (stream.fits Item.stopWord source = true ∧
      ∃ edits, stream.edits style source range template = .ok edits ∧
        edits.Pairwise (fun d e => d.offset ≤ e.offset ∧ d.stop ≤ e.offset) ∧
        (∀ e ∈ edits, e.stop ≤ Text.size source ∧ Text.isBoundary source e.offset = true ∧
          Text.isBoundary source e.stop = true) ∧
        ∃ t, Edit.apply source edits = .ok t) ∨
    (stream.fits Item.stopWord source = false ∧ ∃ index offset after,
      stream.edits style source range template = .error (.outOfOrder index offset after)) := by
  have hfits : stream.fits Item.stopWord source = stream.fits Item.stop source :=
    Item.follow_congr (fun i hi hkind => Word.add_of_lt (hwords i hi hkind)) 0
  rw [hfits]
  cases h : stream.fits Item.stop source with
  | false =>
      obtain ⟨index, offset, after, herror⟩ :=
        render_eq_error (by rw [h]; exact Bool.false_ne_true) style range.isSome
      exact .inr ⟨rfl, index, offset, after, by rw [edits, herror]; rfl⟩
  | true =>
      obtain ⟨s, hrender, hplaced, hsource⟩ := render_pieces h style range.isSome
      have hwithin := (Edit.within_pieces (a := []) hplaced rfl hsource).finish range template
      refine .inl ⟨rfl, _, by rw [edits, hrender]; rfl, ?_, ?_, hwithin.apply_eq_ok⟩
      · refine hwithin.ordered.imp fun {d e} hde => ⟨?_, hde⟩
        exact (Nat.le_add_right d.offset d.length).trans hde
      · intro e he
        exact ⟨hwithin.below e he, Text.isBoundary_of_slice? (hwithin.slices e he)⟩

/-- Two letters are laid out in a source that holds them, and in one that ends before the second. -/
theorem edits_applicable_letters :
    let stream : ItemStream := ⟨#[⟨.text, 0, 1, true⟩, ⟨.text, 2, 1, true⟩], {}⟩
    (∀ i ∈ stream.items.toList, i.kind.isText = true → i.offset + i.length < Word.limit) ∧
      stream.edits {} "a b \n\n" none none = .ok [⟨3, 2, ""⟩] ∧
      (5 ≤ Text.size "a b \n\n" ∧ ∃ t, Edit.apply "a b \n\n" [⟨3, 2, ""⟩] = .ok t) ∧
      ∃ index offset after,
        stream.edits {} "a" none none = .error (.outOfOrder index offset after) := by
  intro stream
  have hwords : ∀ i ∈ stream.items.toList, i.kind.isText = true →
      i.offset + i.length < Word.limit := by decide
  have hedits : stream.edits {} "a b \n\n" none none = .ok [⟨3, 2, ""⟩] := by decide +kernel
  refine ⟨hwords, hedits, ?_, ?_⟩
  · obtain ⟨-, edits, hok, -, hplaces, happly⟩ | ⟨hfits, -⟩ :=
      edits_applicable stream {} "a b \n\n" none none hwords
    · cases hedits.symm.trans hok
      exact ⟨(hplaces _ (List.mem_singleton_self _)).1, happly⟩
    · exact absurd hfits (by decide +kernel)
  · obtain ⟨hfits, -⟩ | ⟨-, herror⟩ := edits_applicable stream {} "a" none none hwords
    · exact absurd hfits (by decide +kernel)
    · exact herror

end ItemStream

end CodeLayout
