import CodeLayout.Proofs.Edit.Copy
import CodeLayout.Proofs.Format.WholeWindow

/-!
# Formatting copies literals

Strings and markup are content down to the last blank.  Every one of them stands whole in one text of
the stream, and that text is no comment, so that a pass copies it.  Hence no edit touches a literal
(`formatRange_literals`).

There is one exception.  Where only a range is formatted, texts with syntax problems move with their
first line, and the lines of a literal move with them (`formatRange_moves_string`).  All that changes
there are blanks.
-/

namespace CodeLayout

open List

/-! ## Literals in texts -/

variable {items : List Item} {source : String}

/-- Where an item `Covers` characters, some piece covers each offset. -/
theorem Covers.exists_at {n k : Nat} {cs : List Char} (h : Covers n items cs) (hlo : n ≤ k)
    (hhi : k < n + Text.sizeOfChars cs) :
    ∃ i ∈ items, 0 < i.length ∧ i.offset ≤ k ∧ k < i.stop := by
  induction h with
  | nil => exact absurd hhi (by rw [Text.sizeOfChars_nil]; omega)
  | mark _ _ _ ih =>
    obtain ⟨i, hi, hrest⟩ := ih hlo hhi
    exact ⟨i, mem_cons_of_mem _ hi, hrest⟩
  | @piece n i items t cs hfits hoff hlen _ ih =>
    by_cases hk : k < n + Text.sizeOfChars t
    · have hpos := Text.sizeOfChars_pos hfits.1
      refine ⟨i, mem_cons_self, by omega, by omega, ?_⟩
      rw [Item.stop]
      omega
    · rw [Text.sizeOfChars_append] at hhi
      obtain ⟨j, hj, hrest⟩ := ih (by omega) (by omega)
      exact ⟨j, mem_cons_of_mem _ hj, hrest⟩

/-- A literal stands whole in a text that is no comment. -/
theorem exists_text_of_literal {tokens : Array Token} (htokens : tokenize source = .ok tokens)
    (hcovers : Covers 0 items source.toList) (hfirm : ∀ i ∈ items, i.Firm source) {t : Token}
    (ht : t ∈ tokens) (hkind : t.kind.isLiteral = true) (hpos : 0 < t.length)
    (hstop : t.stop ≤ Text.size source) :
    ∃ i ∈ items, i.kind.isText = true ∧ i.kind.isComment = false ∧
      i.offset ≤ t.start ∧ t.stop ≤ i.stop := by
  rw [Token.stop] at hstop
  obtain ⟨i, hi, hlen, hlo, hhi⟩ := hcovers.exists_at (k := t.start) (Nat.zero_le _)
    (by rw [Text.sizeOfChars_toList]; omega)
  rcases (hfirm i hi).literals tokens htokens t ht hkind hlen with h | h | ⟨⟨htext, hcomment⟩, hin⟩
  · rw [Token.stop] at h
    omega
  · omega
  · exact ⟨i, hi, htext, hcomment, hin⟩

/-! ## Pieces of texts -/

namespace Edit

open Render (Piece)

variable {ps : List Piece} {q : Piece}

/-- Of two pieces that are `Placed`, one ends before the other starts, or they are the same. -/
theorem Placed.apart {n : Nat} (h : Placed n ps) {p : Piece} (hp : p ∈ ps) (hq : q ∈ ps) :
    p = q ∨ p.offset + p.length ≤ q.offset ∨ q.offset + q.length ≤ p.offset := by
  have hbehind {n : Nat} {ps : List Piece} (h : Placed n ps) : ∀ p ∈ ps, n ≤ p.offset := by
    induction ps generalizing n with
    | nil => exact forall_mem_nil _
    | cons p ps ih =>
      obtain ⟨hoffset, -, hps⟩ := h
      refine forall_mem_cons.mpr ⟨hoffset.ge, fun q hq => ?_⟩
      exact (Nat.le_add_right _ _).trans (ih hps q hq)
  induction ps generalizing n with
  | nil => cases hp
  | cons r ps ih =>
    obtain ⟨hoffset, hlength, hps⟩ := h
    have hrest : ∀ u ∈ ps, r.offset + r.length ≤ u.offset := by
      rw [hoffset, hlength]
      exact hbehind hps
    rcases mem_cons.mp hp with rfl | hp'
    · rcases mem_cons.mp hq with rfl | hq'
      · exact .inl rfl
      · exact .inr (.inl (hrest q hq'))
    · rcases mem_cons.mp hq with rfl | hq'
      · exact .inr (.inr (hrest p hp'))
      · exact ih hps hp' hq'

/-- Every edit of the pieces `Misses` what stands in a piece that has stayed. -/
theorem misses_of_kept {source : String} (hplaced : Placed 0 ps)
    (hsource : source.toList = ps.flatMap (·.old.toList)) {range : Option Span} {e : Edit}
    (he : e ∈ finish source range none (ps.filterMap Piece.edit?)) (hq : q ∈ ps)
    (hkept : q.new = q.old) {start stop : Nat} (hstart : q.offset ≤ start)
    (hstop : stop ≤ q.offset + q.length) : e.Misses start stop := by
  obtain ⟨d, hd, hlo, hhi⟩ := mem_finish (within_pieces (a := []) hplaced rfl hsource) he
  obtain ⟨p, hp, hedit⟩ := mem_filterMap.mp hd
  rw [Piece.edit?] at hedit
  split at hedit
  · cases hedit
  · next hchanged =>
    cases hedit
    have hlo : p.offset ≤ e.offset := hlo
    have hhi : e.stop ≤ p.offset + p.length := hhi
    rcases hplaced.apart hp hq with rfl | hbefore | hbehind
    · exact absurd hkept (by simpa using hchanged)
    · exact .inl (by omega)
    · exact .inr (by omega)

end Edit

namespace Render

variable {keep : Char → Bool}

/-- `mapTail` of lines that agree but for some characters makes texts that do. -/
theorem filter_mapTail {f : List Char → List Char}
    (hf : ∀ line, (f line).filter keep = line.filter keep) (text : String) :
    (mapTail f text).toList.filter keep = text.toList.filter keep := by
  unfold mapTail
  split
  · rfl
  · next line lines hlines =>
    have htext := Text.joinLines_splitLines text.toList
    rw [hlines, Text.joinLines_cons] at htext
    rw [String.toList_ofList, Text.joinLines_cons, ← htext, filter_append, filter_append,
      flatMap_map]
    congr 1
    clear hlines htext
    induction lines with
    | nil => rfl
    | cons l lines ih =>
      simp only [flatMap_cons, filter_append, ih, filter_cons, hf]

/-- `shiftLine` keeps all of a line but its indent. -/
theorem filter_shiftLine (hkeep : ∀ c, Text.isTabOrSpace c = true → keep c = false) (style : Style)
    (delta : Int) (line : List Char) :
    (shiftLine style delta line).filter keep = line.filter keep := by
  have hnone {bs : List Char} (hbs : ∀ c ∈ bs, Text.isTabOrSpace c = true) : bs.filter keep = [] :=
    filter_eq_nil_iff.mpr fun c hc => by simp [hkeep c (hbs c hc)]
  unfold shiftLine
  dsimp only
  split
  · rfl
  · conv_rhs => rw [← takeWhile_append_dropWhile (p := Text.isTabOrSpace) (l := line)]
    rw [filter_append, filter_append, hnone (indentString_blank style _),
      hnone fun c hc => mem_takeWhile_imp hc]

namespace Pass

variable {p : Pass} {items : List Item} {ps : List Piece}

variable {keep : Char → Bool} {i : Item}

/-- Without blanks `itemText` is the text as it is. -/
theorem filter_itemText (hkeep : ∀ c, Lexeme.isBlank c = true → keep c = false) (s : State)
    (i : Item) :
    (p.itemText s i).toList.filter keep = (i.text p.source).toList.filter keep := by
  have htab (c : Char) (hc : Text.isTabOrSpace c = true) : keep c = false :=
    hkeep c (Annotate.isBlank_of_isTabOrSpace hc)
  unfold itemText
  dsimp only
  split
  · exact ((restarred_reindent _ _ _).filter_eq htab).symm
  · exact ((restarred_reindent _ _ _).filter_eq htab).symm
  · split
    · unfold shiftLines
      split
      · rfl
      · exact filter_mapTail (filter_shiftLine htab _ _) _
    · rfl
  · rfl

/-- `itemText` copies a text, unless it is a comment or moves. -/
theorem itemText_eq_text (hcomment : i.kind.isComment = false) (hverbatim : i.kind ≠ .verbatim)
    (s : State) : p.itemText s i = i.text p.source := by
  unfold itemText
  dsimp only
  split
  · next hkind => rw [hkind] at hcomment; cases hcomment
  · next hkind => rw [hkind] at hcomment; cases hcomment
  · next hkind => exact absurd hkind hverbatim
  · rfl

/-- Each text is a `textPiece`. -/
theorem Pieced.exists_textPiece (h : Pieced p items ps) (hi : i ∈ items) :
    ∃ s, p.textPiece s i ∈ ps := by
  induction h with
  | last => cases hi
  | @text s s₁ j items ahead n g ps _ _ _ ih =>
    rcases mem_cons.mp hi with rfl | hi
    · exact ⟨s₁, by simp⟩
    · obtain ⟨s, hs⟩ := ih hi
      exact ⟨s, mem_cons_of_mem _ (mem_cons_of_mem _ hs)⟩

/-- Without blanks no piece changes, if they are `Pieced`. -/
theorem Pieced.filter_eq (h : Pieced p items ps)
    (hkeep : ∀ c, Lexeme.isBlank c = true → keep c = false) :
    ∀ q ∈ ps, q.new.toList.filter keep = q.old.toList.filter keep := by
  have hgap {s : State} {n : Nat} {g : List Char} {ahead : List Item}
      (hg : ∀ c ∈ g, Lexeme.isBlank c = true) :
      (p.gapPiece s n (String.ofList g) ahead).new.toList.filter keep =
        (p.gapPiece s n (String.ofList g) ahead).old.toList.filter keep := by
    have hregapped := p.regapped_gapText hg s.marks.align (p.gapBefore s (String.ofList g) ahead)
    simpa [gapPiece] using (hregapped.filter_eq hkeep).symm
  induction h with
  | last hg => exact forall_mem_singleton.mpr (hgap hg)
  | @text s s₁ i items ahead n g ps hg _ _ ih =>
    refine forall_mem_cons.mpr ⟨hgap hg, forall_mem_cons.mpr ⟨?_, ih⟩⟩
    exact filter_itemText hkeep s₁ i

end Pass

end Render

/-! ## Ranges -/

/-- The token is in a text with syntax problems, which moves where a range is formatted. -/
def ItemStream.moves (s : ItemStream) (t : Token) : Bool :=
  s.items.any fun i => i.kind == .verbatim && decide (i.offset ≤ t.start) && decide (t.stop ≤ i.stop)

/-- The literals that do not move. -/
def ItemStream.literals (s : ItemStream) (tokens : Array Token) : List Token :=
  tokens.toList.filter fun t => t.kind.isLiteral && !s.moves t

section Literals

variable {source : String} {xs : List Lexeme} {style : Style} {stream : ItemStream}

/-- Every edit of a stream `Misses` the `literals` that do not move. -/
theorem misses_literals (hlexes : Lexer.Lexes .markup xs source.toList)
    (hcovers : Covers 0 stream.items.toList source.toList)
    (hfirm : ∀ i ∈ stream.items.toList, i.Firm source) {ranged : Bool}
    {padding : MemberRef → Option Padding} {ps : List Render.Piece} (hplaced : Edit.Placed 0 ps)
    (hsource : source.toList = ps.flatMap (·.old.toList))
    (hpieced : Render.Pass.Pieced { stream.measuringPass style source ranged with padding }
      (stream.items.toList.filter (·.kind.isText)) ps) {range : Option Span} {e : Edit}
    (he : e ∈ Edit.finish source range none (ps.filterMap Render.Piece.edit?)) {t : Token}
    (ht : t ∈ stream.literals (placed xs)) : e.Misses t.start t.stop := by
  rw [ItemStream.literals, mem_filter, Bool.and_eq_true, Bool.not_eq_true'] at ht
  obtain ⟨hmem, hkind, hmoves⟩ := ht
  have hmem : t ∈ placed xs := Array.mem_toList_iff.mp hmem
  have htokens : tokenize source = .ok (placed xs) := tokenizeIn_eq_ok_iff.mpr ⟨xs, hlexes, rfl⟩
  have hc : Annotate.Reading ⟨source, placed xs, style⟩ xs := ⟨rfl, hlexes⟩
  obtain ⟨k, hk, rfl⟩ := hc.eq_tokenOf htokens hmem hkind
  have hpos : 0 < Text.sizeOfChars xs[k].text :=
    Text.sizeOfChars_pos (hlexes.text_ne_nil _ (getElem_mem hk))
  have hend : (Annotate.tokenOf (Lexer.start xs k) xs[k]).stop ≤ Text.size source := by
    have hcut := congrArg Text.sizeOfChars (toList_eq_of_lexes hlexes hk)
    simp only [Text.sizeOfChars_append, Text.sizeOfChars_toList] at hcut
    show Lexer.start xs k + Text.sizeOfChars xs[k].text ≤ _
    rw [hcut, Lexer.start]
    omega
  obtain ⟨i, hi, htext, hcomment, hlo, hhi⟩ :=
    exists_text_of_literal htokens hcovers hfirm hmem hkind hpos hend
  obtain ⟨s, hpiece⟩ := hpieced.exists_textPiece (mem_filter.mpr ⟨hi, htext⟩)
  refine Edit.misses_of_kept hplaced hsource he hpiece ?_ hlo hhi
  refine Render.Pass.itemText_eq_text hcomment (fun hverbatim => ?_) s
  -- a text that moves would move the literal
  have hany : stream.moves (Annotate.tokenOf (Lexer.start xs k) xs[k]) = true := by
    refine Array.any_eq_true'.mpr ⟨i, Array.mem_toList_iff.mp hi, ?_⟩
    simp only [hverbatim, Bool.and_eq_true, decide_eq_true_eq]
    exact ⟨⟨rfl, hlo⟩, hhi⟩
  rw [hmoves] at hany
  cases hany

/-- The `literals` of a source follow each other, and are slices of it. -/
theorem literals_ordered (stream : ItemStream) (hlexes : Lexer.Lexes .markup xs source.toList) :
    (stream.literals (placed xs)).Pairwise (fun t u => t.stop ≤ u.start) ∧
      ∀ t ∈ stream.literals (placed xs), (Text.slice? source t.start t.stop).isSome = true := by
  have hc : Annotate.Reading ⟨source, placed xs, {}⟩ xs := ⟨rfl, hlexes⟩
  refine ⟨.filter _ (pairwise_iff_getElem.mpr fun i j hi hj hij => ?_), fun t ht => ?_⟩
  · rw [Array.length_toList, placed_size] at hi hj
    have hi : i < xs.length := by omega
    have hstop : (placed xs).toList[i].stop = Lexer.start xs (i + 1) := by
      have hget := hc.getElem? hi
      rw [← Array.getElem?_toList] at hget
      rw [(List.getElem?_eq_some_iff.mp hget).2, Lexer.start_succ hi]
      rfl
    have hstart : (placed xs).toList[j].start = Lexer.start xs j := by
      have hget : (placed xs)[j]?.map Token.start = some (Lexer.start xs j) :=
        placed_start (by omega)
      rw [← Array.getElem?_toList, Option.map_eq_some_iff] at hget
      obtain ⟨t, ht, hstart⟩ := hget
      rw [(List.getElem?_eq_some_iff.mp ht).2, hstart]
    rw [hstop, hstart]
    exact Nat.le.intro (Lexer.start_add_stretch xs hij)
  · obtain ⟨hmem, hkind⟩ := mem_filter.mp ht
    obtain ⟨k, hk, rfl⟩ := hc.eq_tokenOf (tokenizeIn_eq_ok_iff.mpr ⟨xs, hlexes, rfl⟩)
      (Array.mem_toList_iff.mp hmem) (Bool.and_eq_true_iff.mp hkind).1
    exact Option.isSome_iff_exists.mpr ⟨_, Text.slice?_of_toList (toList_eq_of_lexes hlexes hk)⟩

end Literals

/-- Whatever range of a readable source is formatted, well-formed or not and whatever the style, no
edit touches a string or a piece of markup outside the texts with syntax problems: they are copied,
one behind the other, and the edits are those of what stands between them.  A source without syntax
problems has no such text.  In those texts, too, nothing but blanks changes. -/
theorem formatRange_literals {source : String} {parsed : Parsed}
    (h : Parsed.ofSource source = .ok parsed) (style : Style) (start stop : Nat) :
    ∃ stream range edits t, annotate source parsed style = .ok stream ∧
      formatEdits source style (some range) none = .ok edits ∧
      formatRange source style start stop = .ok t ∧
      Edit.Copies [] (stream.literals parsed.tokens) edits source.toList t.toList ∧
      (parsed.errors = [] →
        stream.literals parsed.tokens = parsed.tokens.toList.filter (·.kind.isLiteral)) ∧
      ∀ keep : Char → Bool, (∀ c, Lexeme.isBlank c = true → keep c = false) →
        t.toList.filter keep = source.toList.filter keep := by
  obtain ⟨xs, hlexes, rfl⟩ := Parsed.ofSource_eq_ok_iff.mp h
  obtain ⟨stream, hannotate, hcovers, hfirm⟩ := annotate_spec style hlexes
  have hstream : streamOf source style = .ok stream := by
    rw [streamOf, h]
    exact hannotate
  obtain ⟨s, padding, hrender, hplaced, hold, hpieced⟩ := stream.render_pieced style true hcovers
  obtain ⟨range, hrange⟩ : ∃ range, formatRange source style start stop = (do
      Edit.apply source (← formatEdits source style (some range) none)) := ⟨_, rfl⟩
  have hedits := formatEdits_eq (some range) none hstream hrender
  have hwithin := (Edit.within_pieces (a := []) hplaced rfl hold.symm).finish (some range) none
  obtain ⟨hordered, hslices⟩ := literals_ordered stream hlexes
  obtain ⟨ds, hcopies⟩ := Edit.Within.copies (a := []) hwithin rfl (fun _ _ => Nat.zero_le _)
    hordered hslices fun e he t ht =>
      misses_literals hlexes hcovers hfirm hplaced hold.symm hpieced he ht
  have happly := hwithin.apply_eq hcopies.rewrites
  refine ⟨stream, range, _, String.ofList ds, hannotate, hedits, ?_, ?_, fun herrors => ?_,
    fun keep hkeep => ?_⟩
  · rw [hrange, hedits]
    exact happly
  · rw [String.toList_ofList]
    exact hcopies
  · have hplain := plain_of_annotate h herrors hannotate
    have hstays (t : Token) : stream.moves t = false := by
      refine Bool.eq_false_iff.mpr fun hmoves => ?_
      obtain ⟨i, hi, hverbatim⟩ := Array.any_eq_true'.mp hmoves
      simp only [Bool.and_eq_true, beq_iff_eq] at hverbatim
      exact hplain i (Array.mem_toList_iff.mpr hi) hverbatim.1.1
    simp [ItemStream.literals, hstays, Parsed.ofTokens]
  · have hwritten := Edit.apply_finish_range hplaced hold.symm (some range)
    rw [happly, Except.ok.injEq, String.ofList_inj] at hwritten
    rw [String.toList_ofList, hwritten, ← hold, List.flatMap_map, List.filter_flatMap,
      List.filter_flatMap]
    refine List.flatMap_congr fun q hq => ?_
    rcases q.restrict_new source fun e => (some range).all (·.contains e.offset) with hnew | hnew
    · rw [hnew, hpieced.filter_eq hkeep q hq]
    · rw [hnew]

/-- `formatRange` of a whole source, from its edits in their order. -/
theorem formatRange_eq_ok {t : String} {style : Style} {edits : List Edit} {stop : Nat}
    (hstop : Text.size source ≤ stop)
    (hedits : formatEdits source style (some ⟨0, Text.size source⟩) none = .ok edits)
    (hordered : edits.Pairwise fun d e => decide (d.offset ≤ e.offset) = true)
    (ht : Edit.applyFrom source 0 edits = .ok t) : formatRange source style 0 stop = .ok t := by
  rw [formatRange_eq style hstop, hedits]
  simp only [bind, Except.bind]
  rwa [Edit.apply, Edit.sorted, mergeSort_of_pairwise hordered]

/-- A string in a sound statement is copied; the text behind it breaks off. -/
theorem formatRange_literals_string : ∃ parsed stream edits,
    Parsed.ofSource "<?php\n\n  $é=\"x\n y\";\n  foo('a\n b';\n" = .ok parsed ∧ parsed.errors ≠ [] ∧
      annotate "<?php\n\n  $é=\"x\n y\";\n  foo('a\n b';\n" parsed {} = .ok stream ∧
      (stream.literals parsed.tokens).map
        (·.text "<?php\n\n  $é=\"x\n y\";\n  foo('a\n b';\n") = ["\"x\n y\""] ∧
      formatRange "<?php\n\n  $é=\"x\n y\";\n  foo('a\n b';\n" {} 0 40 =
        .ok "<?php\n\n$é = \"x\n y\";\nfoo('a\nb';\n" ∧
      Edit.Copies [] (stream.literals parsed.tokens) edits
        "<?php\n\n  $é=\"x\n y\";\n  foo('a\n b';\n".toList
        "<?php\n\n$é = \"x\n y\";\nfoo('a\nb';\n".toList := by
  have hparsed : (Parsed.ofSource "<?php\n\n  $é=\"x\n y\";\n  foo('a\n b';\n").toOption.any (fun p =>
      !p.errors.isEmpty && (annotate "<?php\n\n  $é=\"x\n y\";\n  foo('a\n b';\n" p {}).toOption.any
        fun s => (s.literals p.tokens).map
          (·.text "<?php\n\n  $é=\"x\n y\";\n  foo('a\n b';\n") == ["\"x\n y\""]) = true := by
    decide +kernel
  have hedits : formatEdits "<?php\n\n  $é=\"x\n y\";\n  foo('a\n b';\n" {}
      (some ⟨0, Text.size "<?php\n\n  $é=\"x\n y\";\n  foo('a\n b';\n"⟩) none =
      .ok [⟨7, 2, ""⟩, ⟨12, 0, " "⟩, ⟨13, 0, " "⟩, ⟨21, 2, ""⟩, ⟨30, 1, ""⟩] := by decide +kernel
  have hformat : formatRange "<?php\n\n  $é=\"x\n y\";\n  foo('a\n b';\n" {} 0 40 =
      .ok "<?php\n\n$é = \"x\n y\";\nfoo('a\nb';\n" :=
    formatRange_eq_ok (by decide) hedits (by decide) (by decide +kernel)
  obtain ⟨parsed, h, hparsed⟩ := exists_ok_of_any hparsed
  obtain ⟨herrors, htexts⟩ := Bool.and_eq_true_iff.mp hparsed
  obtain ⟨stream, range, edits, t, hstream, -, ht, hcopies, -⟩ := formatRange_literals h {} 0 40
  rw [hstream] at htexts
  cases hformat.symm.trans ht
  exact ⟨parsed, stream, edits, h, by simpa using herrors, hstream, beq_iff_eq.mp htexts,
    hformat, hcopies⟩

/-- A string over two lines in a call that breaks off: the second line of the string moves with the
first line of the call. -/
theorem formatRange_moves_string : ∃ parsed,
    Parsed.ofSource "<?php\n\n  foo(\"a\n b\";\n" = .ok parsed ∧
      (∃ t ∈ parsed.tokens.toList, t.kind = .str ∧
        t.text "<?php\n\n  foo(\"a\n b\";\n" = "\"a\n b\"") ∧
      formatRange "<?php\n\n  foo(\"a\n b\";\n" {} 0 40 = .ok "<?php\n\nfoo(\"a\nb\";\n" ∧
      ¬ "\"a\n b\"".toList <:+: "<?php\n\nfoo(\"a\nb\";\n".toList := by
  have hparsed : (Parsed.ofSource "<?php\n\n  foo(\"a\n b\";\n").toOption.any (fun p =>
      p.tokens.toList.any fun t => t.kind == .str &&
        t.text "<?php\n\n  foo(\"a\n b\";\n" == "\"a\n b\"") = true := by decide +kernel
  have hedits : formatEdits "<?php\n\n  foo(\"a\n b\";\n" {}
      (some ⟨0, Text.size "<?php\n\n  foo(\"a\n b\";\n"⟩) none =
      .ok [⟨7, 2, ""⟩, ⟨16, 1, ""⟩] := by decide +kernel
  obtain ⟨parsed, h, hparsed⟩ := exists_ok_of_any hparsed
  obtain ⟨t, ht, hstr⟩ := List.any_eq_true.mp hparsed
  obtain ⟨hkind, htext⟩ := Bool.and_eq_true_iff.mp hstr
  exact ⟨parsed, h, ⟨t, ht, beq_iff_eq.mp hkind, beq_iff_eq.mp htext⟩,
    formatRange_eq_ok (by decide) hedits (by decide) (by decide +kernel), by decide +kernel⟩

end CodeLayout
