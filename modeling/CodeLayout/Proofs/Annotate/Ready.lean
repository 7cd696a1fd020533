import CodeLayout.Proofs.Annotate.Cover

/-!
# The state between constructs

Every token that is handed out is emitted whole, a cast in pieces, so that whatever is emitted covers
the tokens up to the cursor (`Ready`).  The state is ready again behind trivia, behind a leaf and
behind a stretch that is copied (`Ready.trivia`, `Ready.leaf`, `Ready.verbatim`).
-/

namespace CodeLayout

open List
open Text (isTabOrSpace sizeOfChars sizeOfChars_append sizeOfChars_eq_length sizeOfChars_nil)
open Lexer (start start_succ start_add_stretch)

namespace Annotate

/-- What has been emitted covers the tokens up to the cursor, and what is queued are marks. -/
structure Ready (c : Context) (xs : List Lexeme) (s : State) : Prop where
  cursor_le : s.cursor ≤ xs.length + 1
  covers : Covers 0 s.items.toList ((xs.take s.cursor).flatMap Lexeme.text)
  firm : ∀ i ∈ s.items.toList, i.Firm c.source
  pending : s.QueuesMarks

section Ready

variable {c : Context} {xs : List Lexeme} {s : State}

variable {i n last : Nat} {s' : State} {word trail : List Char} {t : Token}

theorem runs_takeUntil (hi : s.cursor ≤ i) (hle : i ≤ c.tokens.size) :
    Goes c (takeUntil i) s (c.tokens.extract s.cursor i).toList { s with cursor := i } := by
  intro margin
  have hnot : ¬ (i < s.cursor || i > (c.withMargin margin).tokens.size) = true := by
    rw [show (c.withMargin margin).tokens = c.tokens from rfl]
    simp only [Bool.or_eq_true, decide_eq_true_eq]
    omega
  refine Runs.bind rfl (Runs.bind rfl ?_)
  rw [if_neg hnot]
  exact rfl

/-- `offset` is that of the token at the cursor. -/
theorem runs_offset (hc : Reading c xs) (hle : s.cursor ≤ xs.length) :
    Goes c offset s (start xs s.cursor) s := by
  have hstart := placed_start hle
  rw [← hc.tokens] at hstart
  obtain ⟨t, ht, hstart⟩ := Option.map_eq_some_iff.mp hstart
  refine Runs.goes (.bind rfl (.bind rfl ?_)) fun _ => rfl
  rw [ht, ← hstart]
  exact rfl

theorem Ready.pushes (h : Ready c xs s) (hpush : Pushes c s s' n []) :
    Ready c xs s' := by
  obtain ⟨new, hnew, hcov, hfirm⟩ := hpush.items
  refine ⟨hpush.cursor ▸ h.cursor_le, ?_, ?_, hpush.pending h.pending⟩
  · rw [hnew, hpush.cursor, ← append_nil (List.flatMap _ _)]
    exact h.covers.append hcov.of_nil
  · rw [hnew]
    exact forall_mem_append.mpr ⟨h.firm, hfirm⟩

theorem emits_foldlM_extract (hc : Reading c xs) {j : Nat} (hij : i ≤ j) (hj : j ≤ xs.length + 1) :
    Emits c (start xs i) (((xs.take j).drop i).flatMap Lexeme.text)
      ((c.tokens.extract i j).toList.foldlM triviaToken {}) := by
  rw [hc.tokens]
  rcases Nat.lt_or_ge xs.length j with hlt | hle
  · obtain rfl : j = xs.length + 1 := by omega
    have htake : xs.take (xs.length + 1) = xs := take_of_length_le (Nat.le_succ _)
    rcases Nat.lt_or_ge xs.length i with hlt' | hle'
    · have hdrop : xs.drop i = [] := drop_of_length_le hlt'.le
      have hnone : ((placed xs).extract i (xs.length + 1)).toList = [] := by
        rw [Array.toList_extract, extract_eq_take_drop, show xs.length + 1 - i = 0 by omega,
          take_zero]
      rw [hnone, htake, hdrop]
      exact .pure
    · rw [toList_extract_placed_end hle', foldlM_append, htake]
      have hfold := emits_foldlM_triviaToken hc hle' (Nat.le_refl _) {}
      rw [take_length] at hfold
      exact .bind_mark hfold fun _ _ => .bind_mark emits_triviaToken_eof fun _ _ => .pure
  · rw [toList_extract_placed hij hle]
    exact emits_foldlM_triviaToken hc hij hle _

/-- `Ready` again, by what is emitted for the tokens up to a new cursor. -/
theorem Ready.advance (h : Ready c xs s) (hi : s.cursor ≤ i) (hle : i ≤ xs.length + 1)
    (hpush : Pushes c { s with cursor := i } s' (start xs s.cursor)
      (((xs.take i).drop s.cursor).flatMap Lexeme.text)) :
    Ready c xs s' ∧ s'.cursor = i := by
  obtain ⟨new, hnew, hcov, hfirm⟩ := hpush.items
  have hcur : s'.cursor = i := hpush.cursor
  have htake : xs.take i = xs.take s.cursor ++ (xs.take i).drop s.cursor := by
    conv_lhs => rw [← take_append_drop s.cursor (xs.take i), take_take, Nat.min_eq_left hi]
  refine ⟨⟨hcur ▸ hle, ?_, ?_, hpush.pending h.pending⟩, hcur⟩
  · rw [hnew, hcur, htake, flatMap_append]
    refine h.covers.append ?_
    rw [Nat.zero_add]
    exact hcov
  · rw [hnew]
    exact forall_mem_append.mpr ⟨h.firm, hfirm⟩

/-- `trivia` emits the tokens before an index, from the cursor on, and then what is queued. -/
theorem Ready.trivia (hc : Reading c xs) (h : Ready c xs s) (hi : s.cursor ≤ i)
    (hle : i ≤ xs.length + 1) :
    ∃ s', Goes c (trivia i) s () s' ∧ Ready c xs s' ∧ s'.cursor = i := by
  have htake : Goes c (takeUntil i) s _ _ := runs_takeUntil hi (by rw [hc.size]; exact hle)
  obtain ⟨seen, s₁, hrun₁, hpush₁⟩ := emits_foldlM_extract hc hi hle { s with cursor := i } h.pending
  obtain ⟨hready₁, hcursor₁⟩ := h.advance hi hle hpush₁
  have hflush (o : Nat) : Emits c 0 [] (do flushLead seen o; flush false o) :=
    .mark_bind emits_flushLead fun _ => emits_flush
  obtain ⟨⟨⟩, s₂, hrun₂, hpush₂⟩ := Emits.mark_bind emits_offset hflush s₁ hready₁.pending
  exact ⟨s₂, htake.bind (hrun₁.bind hrun₂), hready₁.pushes hpush₂, hpush₂.cursor.trans hcursor₁⟩

/-! ### Leaves -/

/-- The parts of a cast are found again in its text, by `takeWhile`. -/
theorem cast_parts {lead : List Char} (hlead : ∀ ch ∈ lead, isTabOrSpace ch = true)
    (htrail : ∀ ch ∈ trail, isTabOrSpace ch = true) (hne : word ≠ [])
    (hword : ∀ ch ∈ word, isTabOrSpace ch = false) :
    (lead ++ word ++ trail).takeWhile isTabOrSpace = lead ∧
      (word ++ trail).takeWhile (!isTabOrSpace ·) = word := by
  constructor
  · obtain ⟨w, ws, rfl⟩ := exists_cons_of_ne_nil hne
    rw [append_assoc, takeWhile_append_of_pos hlead, cons_append,
      takeWhile_cons_of_neg (by simp [hword w]), append_nil]
  · rw [takeWhile_append_of_pos (by simpa using hword)]
    cases trail with
    | nil => simp
    | cons ch trail =>
      rw [takeWhile_cons_of_neg (by simp [htrail ch]), append_nil]

/-- `castPieces` emits a cast in pieces, which are all of it. -/
theorem emits_castPieces {as lead cs : List Char}
    (hsource : c.source.toList = as ++ ('(' :: (lead ++ word ++ trail) ++ [')']) ++ cs)
    (hstart : t.start = sizeOfChars as)
    (hlen : t.length = sizeOfChars ('(' :: (lead ++ word ++ trail) ++ [')']))
    (hlead : ∀ ch ∈ lead, isTabOrSpace ch = true)
    (htrail : ∀ ch ∈ trail, isTabOrSpace ch = true) (hne : word ≠ [])
    (hword : ∀ ch ∈ word, 65 ≤ ch.toNat ∧ ch.toNat ≤ 122)
    (hspares : ∀ i : Item, t.start ≤ i.offset → i.stop ≤ t.stop →
      ∀ tokens, tokenize c.source = .ok tokens → i.Spares tokens) :
    Emits c t.start ('(' :: (lead ++ word ++ trail) ++ [')']) (castPieces t) := by
  have hblank {cs : List Char} (h : ∀ ch ∈ cs, isTabOrSpace ch = true) :
      sizeOfChars cs = cs.length := by
    refine sizeOfChars_eq_length fun ch hch => ?_
    have := h ch hch
    simp only [isTabOrSpace, Bool.or_eq_true, beq_iff_eq] at this
    rcases this with rfl | rfl <;> decide
  have hsize : sizeOfChars word = word.length :=
    sizeOfChars_eq_length fun ch hch => by have := hword ch hch; omega
  have hnot : ∀ ch ∈ word, isTabOrSpace ch = false := by
    intro ch hch
    have := hword ch hch
    rw [Bool.eq_false_iff]
    intro htab
    simp only [isTabOrSpace, Bool.or_eq_true, beq_iff_eq] at htab
    rcases htab with rfl | rfl <;> simp at this
  have hinner : ((t.text c.source).toList.drop 1).dropLast = lead ++ word ++ trail := by
    rw [Token.text, Token.stop, hlen, hstart, Text.slice_of_toList hsource, String.toList_ofList]
    simp
  obtain ⟨h1, h2⟩ := cast_parts hlead htrail hne hnot
  have hdrop : (lead ++ word ++ trail).drop lead.length = word ++ trail := by
    rw [append_assoc, drop_left]
  have hrest : (lead ++ word ++ trail).length - lead.length - word.length = trail.length := by
    simp only [length_append]
    omega
  have hend : t.stop = t.start + 1 + lead.length + word.length + trail.length + 1 := by
    rw [Token.stop, hlen]
    simp [sizeOfChars, hblank hlead, hblank htrail, hsize]
    have hone : '('.utf8Size = 1 ∧ ')'.utf8Size = 1 := by decide
    omega
  have hstop : t.stop - 1 = t.start + 1 + lead.length + word.length + trail.length := by
    rw [hend, Nat.add_sub_cancel]
  unfold castPieces
  refine .read_bind (fun _ => rfl) ?_
  simp only [hinner, h1, hdrop, h2, hrest, hstop]
  refine .mark_bind emits_breakable fun b => ?_
  rw [show '(' :: (lead ++ word ++ trail) ++ [')'] = ['('] ++ (lead ++ (word ++ (trail ++ [')']))) by
    simp]
  have hsign (ch : Char) : Fits .text [ch] := ⟨by simp, .inl rfl⟩
  have hfirm {o n : Nat} {x : List Char} (ds es : List Char)
      (hcut : '(' :: (lead ++ word ++ trail) ++ [')'] = ds ++ x ++ es)
      (ho : o = t.start + sizeOfChars ds) (hn : n = sizeOfChars x) (hx : Text.Bare x) :
      Item.Firm c.source ⟨.text, o, n, b⟩ := by
    refine .of_toList (a := as ++ ds) (z := es ++ cs) (by rw [hsource, hcut]; simp) ?_ hn
      (.of_bare (by simp) rfl hx) (hspares _ ?_ ?_)
    · rw [ho, hstart, sizeOfChars_append]
    · show t.start ≤ o
      omega
    · show o + n ≤ t.start + t.length
      rw [hlen, hcut, sizeOfChars_append, sizeOfChars_append]
      omega
  have hblanks {o n : Nat} (hlo : t.start ≤ o) (hhi : o + n ≤ t.stop) :
      Item.Firm c.source ⟨.blanks, o, n, b⟩ := .of_not_isText rfl (hspares _ hlo hhi)
  have hone : sizeOfChars ['('] = 1 := rfl
  refine (emits_push_piece (i := ⟨.text, t.start, 1, b⟩) (hsign '(') rfl
    (hfirm (x := ['(']) [] (lead ++ word ++ trail ++ [')']) (by simp) rfl rfl
      (.cons (by decide)))).bind fun _ => ?_
  refine .mark_bind (emits_push_mark rfl rfl) fun _ => ?_
  refine emits_optional_piece (fun h => ⟨h, .inr ⟨rfl, fun ch hch => ?_⟩⟩) (hblank hlead)
    (hblanks (o := t.start + 1) (n := lead.length) (by omega) (by omega)) ?_
  · exact isBlank_of_isTabOrSpace (hlead ch hch)
  refine (emits_push_piece (i := ⟨.text, t.start + 1 + lead.length, word.length, b⟩)
    (fits_text hne rfl) hsize.symm (hfirm ('(' :: lead) (trail ++ [')']) (by simp) ?_ hsize.symm
      ?_)).bind fun _ => ?_
  · rw [← singleton_append, sizeOfChars_append, hone, hblank hlead, Nat.add_assoc]
  · intro ch hch
    have hletter := hword ch (mem_of_mem_head? hch)
    rw [Bool.eq_false_iff]
    intro hspace
    simp only [Lexeme.isBlank, Bool.or_eq_true, beq_iff_eq] at hspace
    rcases hspace with ((rfl | rfl) | rfl) | rfl <;> simp at hletter
  rw [hsize]
  refine emits_optional_piece (fun h => ⟨h, .inr ⟨rfl, fun ch hch => ?_⟩⟩) (hblank htrail)
    (hblanks (o := t.start + 1 + lead.length + word.length) (n := trail.length) (by omega)
      (by omega)) ?_
  · exact isBlank_of_isTabOrSpace (htrail ch hch)
  refine .mark_bind (emits_push_mark rfl rfl) fun _ => ?_
  refine .bind_mark ?_ fun _ _ => emits_mark rfl
  refine emits_push_piece
    (i := ⟨.text, t.start + 1 + lead.length + word.length + trail.length, 1, b⟩) (hsign ')') rfl
    (hfirm (x := [')']) ('(' :: (lead ++ word ++ trail)) [] (by simp) ?_ rfl (.cons (by decide)))
  rw [← singleton_append, sizeOfChars_append, sizeOfChars_append,
    sizeOfChars_append, hone, hblank hlead, hsize, hblank htrail]
  omega

theorem drop_take_succ (hi : i < xs.length) : (xs.take (i + 1)).drop i = [xs[i]] := by
  rw [take_succ_eq_append_getElem hi, drop_append_of_le_length
    (by rw [length_take_of_le hi.le]), drop_of_length_le (by simp), nil_append]

theorem runs_take (hi : s.cursor = i) (ht : c.tokens[i]? = some t) :
    Goes c (take i) s t { s with cursor := i + 1 } := by
  have hnot : ¬ (i != s.cursor) = true := by simp [hi]
  intro margin
  refine Runs.bind rfl ?_
  rw [if_neg hnot]
  refine Runs.bind rfl ?_
  simp only [show (c.withMargin margin).tokens[i]? = some t from ht]
  exact rfl

/-- The token of a leaf is emitted whole (`Emits`). -/
theorem emits_leafToken (hc : Reading c xs) (hi : i < xs.length)
    (hleaf : xs[i].kind.isTrivia = false) :
    Emits c (start xs i) xs[i].text
      (match (tokenOf (start xs i) xs[i]).kind with
      | .cast => castPieces (tokenOf (start xs i) xs[i])
      | .attributeStart => pushToken .attributeStart (tokenOf (start xs i) xs[i])
      | .openTagWithEcho => do
        pushToken .openTag (tokenOf (start xs i) xs[i])
        role .afterOpenTag
      | _ => pushToken .text (tokenOf (start xs i) xs[i])) := by
  have hmem : xs[i] ∈ xs := getElem_mem hi
  have hne := hc.lexes.text_ne_nil _ hmem
  have hblank : xs[i].kind ≠ .whitespace := fun h => by rw [h] at hleaf; cases hleaf
  have hhtml : xs[i].kind ≠ .inlineHtml := fun h => by rw [h] at hleaf; cases hleaf
  have hpiece {kind : ItemKind} (hkind : kind.isText = true) (hnot : kind ≠ .html)
      (hcomment : kind.isComment = false) :
      Emits c (start xs i) xs[i].text (pushToken kind (tokenOf (start xs i) xs[i])) :=
    emits_pushToken (t := tokenOf (start xs i) xs[i]) (fits_text hne hkind) rfl
      fun _ => hc.firm hi ⟨hkind, hblank, by simp [hnot, hhtml], by simp [hcomment],
        (by rintro rfl; cases hcomment), by rintro (rfl | rfl) <;> cases hcomment⟩
  split
  · next hkind =>
    obtain ⟨lead, word, trail, htext, hlead, htrail, hword⟩ := hc.lexes.cast hmem hkind
    obtain ⟨hwne, hletters⟩ := Lexer.lowerWord_mem_castTypes hword
    have hsource := toList_eq_of_lexes hc.lexes hi
    rw [htext] at hsource ⊢
    refine emits_castPieces (t := tokenOf (start xs i) xs[i]) hsource rfl ?_ hlead htrail hwne
      hletters fun item hlo hhi => ?_
    · rw [← htext]
      rfl
    · refine hc.spares_inside hi ?_ hlo (hhi.trans (start_succ hi).ge)
      rw [show xs[i].kind = .cast from hkind]
      rfl
  · exact hpiece rfl (by simp) rfl
  · exact .bind_mark (hpiece rfl (by simp) rfl) fun _ _ => emits_mark rfl
  · exact hpiece rfl (by simp) rfl

/-- `leaf` emits a leaf after the tokens in front of it and what was queued. -/
theorem Ready.leaf (hc : Reading c xs) (h : Ready c xs s) (hi : s.cursor ≤ i)
    (hleaf : IsLeaf xs i) :
    ∃ s', Goes c (leaf i) s () s' ∧ Ready c xs s' ∧ s'.cursor = i + 1 := by
  have hlt := hleaf.lt
  obtain ⟨s₁, hrun₁, hready, hcursor⟩ := h.trivia hc hi (by omega)
  obtain ⟨⟨⟩, s₂, hrun₂, hpush⟩ :=
    emits_leafToken hc hlt (hleaf.isTrivia hlt) { s₁ with cursor := i + 1 } hready.pending
  refine ⟨s₂, hrun₁.bind ((runs_take hcursor (hc.getElem? hlt)).bind hrun₂), ?_⟩
  refine hready.advance (by omega) (by omega) ?_
  rw [hcursor, drop_take_succ hlt, flatMap_singleton]
  exact hpush

/-- A stretch of tokens is `Firm` as the leaf that it starts with. -/
theorem Reading.firm_stretch (hc : Reading c xs) {first : Nat} {b : Bool} (hle : first ≤ last)
    (hlt : last < xs.length) (hleaf : IsLeaf xs first)
    (hlen : n = sizeOfChars (((xs.take (last + 1)).drop first).flatMap Lexeme.text)) :
    Item.Firm c.source ⟨.verbatim, start xs first, n, b⟩ := by
  have hi : first < xs.length := by omega
  have htrivia := hleaf.isTrivia hi
  have hbare := hc.bare hi (fun h => by rw [h] at htrivia; cases htrivia)
    (fun h => by rw [h] at htrivia; cases htrivia)
  have hsplit : xs = xs.take first ++ (xs.take (last + 1)).drop first ++ xs.drop (last + 1) := by
    conv_lhs => rw [← take_append_drop (last + 1) xs,
      ← take_append_drop first (xs.take (last + 1)), take_take,
      Nat.min_eq_left (by omega)]
  have hsource := hc.lexes.flatMap_text.symm
  rw [hsplit, flatMap_append, flatMap_append] at hsource
  have hstop : start xs first + n = start xs (last + 1) := by
    rw [hlen, start_add_stretch xs (by omega)]
  refine .of_toList hsource rfl hlen (.of_bare (by simp) rfl ?_) ?_
  · rw [drop_take_cons (by omega) hi, flatMap_cons]
    exact hbare.append (hc.lexes.text_ne_nil _ (getElem_mem hi))
  · exact hc.spares (Nat.le_refl _) hstop.le fun _ _ _ _ _ => ⟨⟨rfl, rfl⟩, rfl, hstop⟩

/-- `verbatim` keeps a stretch of tokens as one piece. -/
theorem Ready.verbatim (hc : Reading c xs) (h : Ready c xs s) {t : Tree} {first : Nat}
    (hfirst : t.first? = some first) (hlast : t.last? = some last) (hi : s.cursor ≤ first)
    (hleaf : IsLeaf xs first) (hle : first ≤ last) (hlt : last < xs.length) :
    ∃ s', Goes c (verbatim t) s () s' ∧ Ready c xs s' ∧ s'.cursor = last + 1 := by
  obtain ⟨s₁, hrun₁, hready, hcursor⟩ := h.trivia hc hi (by omega)
  have hsize := hc.size
  have htake := runs_takeUntil (c := c) (s := s₁) (i := last + 1) (by omega) (by omega)
  have hhead := head?_extract c.tokens (i := s₁.cursor) (j := last + 1) (by omega)
    (by omega)
  have htail := getLast?_extract c.tokens (i := s₁.cursor) (j := last) (by omega)
    (by omega)
  have hstretch := start_add_stretch xs (i := first) (j := last + 1) (by omega)
  have hne : ((xs.take (last + 1)).drop first).flatMap Lexeme.text ≠ [] := by
    intro hnil
    rw [hnil, sizeOfChars_nil] at hstretch
    have := hc.start_lt (i := first) (j := last + 1) (by omega) hlt
    omega
  rw [hcursor, hc.getElem? (by omega)] at hhead
  rw [hcursor, hc.getElem? hlt] at htail
  have hemit : Emits c (start xs first)
      (((xs.take (last + 1)).drop first).flatMap Lexeme.text) (do
        push ⟨.verbatim, start xs first,
          (tokenOf (start xs last) xs[last]).stop - start xs first, ← breakable⟩) := by
    refine .mark_bind emits_breakable fun b => ?_
    have hlen : (tokenOf (start xs last) xs[last]).stop - start xs first =
        sizeOfChars (((xs.take (last + 1)).drop first).flatMap Lexeme.text) := by
      show start xs last + sizeOfChars xs[last].text - start xs first = _
      rw [← start_succ hlt, ← hstretch, Nat.add_sub_cancel_left]
    refine emits_push_piece (i := ⟨.verbatim, start xs first, _, b⟩) (fits_text hne rfl) hlen
      ?_
    exact hc.firm_stretch hle hlt hleaf hlen
  obtain ⟨⟨⟩, s₂, hrun₂, hpush⟩ := hemit { s₁ with cursor := last + 1 } hready.pending
  have hrun : Goes c (Annotate.verbatim t) s () s₂ := by
    unfold Annotate.verbatim
    rw [hfirst, hlast]
    refine hrun₁.bind (htake.bind ?_)
    rw [hcursor, hhead, htail]
    exact hrun₂
  refine ⟨s₂, hrun, hready.advance (by omega) (by omega) ?_⟩
  rw [hcursor]
  exact hpush

end Ready

end Annotate

end CodeLayout
