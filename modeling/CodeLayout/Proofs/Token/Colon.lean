import CodeLayout.Proofs.Token.Edges

/-!
# Reading up to a colon

Only comments and strings go on over a colon; every other rule stops there.  So the text up to a
colon that is a token of its own has the tokens up to that one, whatever follows
(`Lexes.up_to_colon`).
-/

namespace CodeLayout

open List

/-- The second text is the first one, cut behind one of its colons. -/
inductive ToColon : List Char → List Char → Prop
  | here {as : List Char} : ToColon (':' :: as) [':']
  | cons {c : Char} {as bs : List Char} : ToColon as bs → ToColon (c :: as) (c :: bs)

namespace ToColon

variable {as bs : List Char}

theorem append (cs : List Char) (h : ToColon as bs) : ToColon (cs ++ as) (cs ++ bs) := by
  induction cs with
  | nil => exact h
  | cons c cs ih => exact .cons ih

theorem isPrefix (h : ToColon as bs) : bs <+: as := by
  induction h with
  | here => exact ⟨_, rfl⟩
  | cons _ ih => exact (prefix_cons_inj _).mpr ih

theorem head? (h : ToColon as bs) : as.head? = bs.head? := by
  cases h <;> rfl

/-- A sign is read alike by `ToColon`, if a colon stands at most at its end, or at its start. -/
theorem isPrefixOf {c : Char} {sign : List Char} (h : ToColon as bs)
    (hsign : ':' ∉ sign.tail.dropLast) : sign.isPrefixOf (c :: as) = sign.isPrefixOf (c :: bs) := by
  have htail : ∀ {sign as bs : List Char}, ToColon as bs → ':' ∉ sign.dropLast →
      sign.isPrefixOf as = sign.isPrefixOf bs := by
    intro sign
    induction sign with
    | nil => intros; simp
    | cons s sign ih =>
      intro as bs h hsign
      cases sign with
      | nil => cases h <;> simp [List.isPrefixOf]
      | cons t sign =>
        rw [dropLast_cons_of_ne_nil (cons_ne_nil t sign), mem_cons, not_or] at hsign
        cases h with
        | here =>
          have hne : (s == ':') = false := by simpa using Ne.symm hsign.1
          rw [isPrefixOf_cons_cons, isPrefixOf_cons_cons, hne, Bool.false_and,
            Bool.false_and]
        | cons h => rw [isPrefixOf_cons_cons, isPrefixOf_cons_cons, ih h hsign.2]
  cases sign with
  | nil => simp
  | cons s sign =>
    rw [isPrefixOf_cons_cons, isPrefixOf_cons_cons,
      show sign.isPrefixOf as = sign.isPrefixOf bs from htail h hsign]

end ToColon

/-! ## Counts -/

/-- The count of characters at the start does not go past a colon. -/
def StopsAtColon (f : List Char → Nat) : Prop :=
  ∀ as bs : List Char, ToColon as bs → ∃ w as' bs', as = w ++ as' ∧ bs = w ++ bs' ∧
    f as = w.length ∧ f bs = w.length ∧ ToColon as' bs'

namespace StopsAtColon

variable {f g : List Char → Nat}

theorem eq (hf : StopsAtColon f) {as bs : List Char} (h : ToColon as bs) : f as = f bs := by
  obtain ⟨w, as, bs, rfl, rfl, has, hbs, -⟩ := hf as bs h
  rw [has, hbs]

theorem takeWhile {p : Char → Bool} (hp : p ':' = false) :
    StopsAtColon fun cs => (cs.takeWhile p).length := by
  intro as bs h
  induction h with
  | here => exact ⟨[], _, _, rfl, rfl, by simp [hp], by simp [hp], .here⟩
  | @cons c as bs h ih =>
    by_cases hc : p c = true
    · obtain ⟨w, as, bs, rfl, rfl, has, hbs, hrest⟩ := ih
      dsimp only at has hbs
      refine ⟨c :: w, as, bs, rfl, rfl, ?_, ?_, hrest⟩ <;> dsimp only
      · rw [takeWhile_cons_of_pos hc, length_cons, has, length_cons]
      · rw [takeWhile_cons_of_pos hc, length_cons, hbs, length_cons]
    · exact ⟨[], _, _, rfl, rfl, by simp [hc], by simp [hc], h.cons⟩

theorem digits : StopsAtColon Lexeme.digits := takeWhile (by decide)

/-- `StopsAtColon` for one count, and another one behind it if there is anything to count. -/
theorem seq {h : List Char → Nat} (hf : StopsAtColon f) (hg : StopsAtColon g)
    (hzero : ∀ cs, f cs = 0 → h cs = 0) (hpos : ∀ cs, f cs ≠ 0 → h cs = f cs + g (cs.drop (f cs))) :
    StopsAtColon h := by
  intro as bs hcolon
  obtain ⟨w, as', bs', rfl, rfl, has, hbs, hrest⟩ := hf as bs hcolon
  by_cases hw : w = []
  · subst hw
    exact ⟨[], as', bs', rfl, rfl, hzero _ has, hzero _ hbs, hrest⟩
  · obtain ⟨w', as, bs, rfl, rfl, has', hbs', hrest⟩ := hg as' bs' hrest
    have hne : w.length ≠ 0 := by simpa using hw
    refine ⟨w ++ w', as, bs, by simp, by simp, ?_, ?_, hrest⟩
    · rw [hpos _ (has ▸ hne), has, drop_left, has', length_append]
    · rw [hpos _ (hbs ▸ hne), hbs, drop_left, hbs', length_append]

/-- `StopsAtColon` for counts behind signs, one after the other. -/
theorem groups (hf : StopsAtColon f) (sign : Char) (hsign : sign ≠ ':')
    (hcons : ∀ c cs, g (c :: cs) = if c == sign then
      match f cs with
      | 0 => 0
      | n => 1 + n + g (cs.drop n)
    else 0) : StopsAtColon g := by
  intro as bs h
  induction hn : as.length using Nat.strong_induction_on generalizing as bs with
  | _ n ih =>
    cases h with
    | here =>
      have hzero (cs : List Char) : g (':' :: cs) = 0 := by
        rw [hcons, if_neg (by simpa using hsign.symm)]
      exact ⟨[], _, _, rfl, rfl, hzero _, hzero _, .here⟩
    | @cons c as bs h =>
      by_cases hc : (c == sign) = true
      · obtain ⟨w, as', bs', rfl, rfl, has, hbs, hrest⟩ := hf as bs h
        cases w with
        | nil =>
          refine ⟨[], _, _, rfl, rfl, ?_, ?_, h.cons⟩
          · rw [hcons, if_pos hc, has]
            rfl
          · rw [hcons, if_pos hc, hbs]
            rfl
        | cons d w =>
          have hlt : as'.length < n := by
            rw [← hn]
            simp
            omega
          obtain ⟨w', as, bs, rfl, rfl, has', hbs', hrest⟩ := ih _ hlt as' bs' hrest rfl
          have hvalue {cs : List Char} (hcs : f (d :: w ++ cs) = (d :: w).length) :
              g (c :: (d :: w ++ cs)) = 1 + (d :: w).length + g cs := by
            rw [hcons, if_pos hc, hcs]
            show 1 + (d :: w).length + g ((d :: w ++ cs).drop (d :: w).length) = _
            rw [drop_left]
          refine ⟨c :: (d :: w ++ w'), as, bs, by simp, by simp, ?_, ?_, hrest⟩
          · rw [hvalue has, has']
            simp
            omega
          · rw [hvalue hbs, hbs']
            simp
            omega
      · have hzero (cs : List Char) : g (c :: cs) = 0 := by rw [hcons, if_neg hc]
        exact ⟨[], _, _, rfl, rfl, hzero _, hzero _, h.cons⟩

theorem digitGroups : StopsAtColon Lexeme.digitGroups :=
  groups digits '_' (by decide) Lexeme.digitGroups.eq_2

theorem decimal : StopsAtColon Lexeme.decimal := by
  refine seq digits digitGroups (fun cs hzero => ?_) fun cs hpos => ?_
  · rw [Lexeme.decimal, hzero]
    rfl
  · unfold Lexeme.decimal
    split
    · next hzero => exact absurd hzero hpos
    · rfl

theorem identLength : StopsAtColon Text.identLength := by
  intro as bs h
  cases h with
  | here => exact ⟨[], _, _, rfl, rfl, rfl, rfl, .here⟩
  | @cons c as bs h =>
    by_cases hc : Text.isIdentStart c = true
    · obtain ⟨w, as, bs, rfl, rfl, has, hbs, hrest⟩ :=
        takeWhile (p := Text.isIdentContinue) (by decide) as bs h
      dsimp only at has hbs
      refine ⟨c :: w, as, bs, rfl, rfl, ?_, ?_, hrest⟩
      · rw [Text.identLength, if_pos hc, has, length_cons, Nat.add_comm]
      · rw [Text.identLength, if_pos hc, hbs, length_cons, Nat.add_comm]
    · exact ⟨[], _, _, rfl, rfl, if_neg hc, if_neg hc, h.cons⟩

theorem nameParts : StopsAtColon Lexeme.nameParts :=
  groups identLength '\\' (by decide) Lexeme.nameParts.eq_2

end StopsAtColon

/-! ## Rules -/

namespace Lexeme

variable {as bs : List Char} (h : ToColon as bs)
include h

theorem exponent_toColon : exponent as = exponent bs := by
  cases h with
  | here => rfl
  | @cons c as bs h =>
    cases h with
    | here => rfl
    | @cons s as bs h =>
      have hdigits : digits ((s :: as).drop (if s == '+' || s == '-' then 1 else 0)) =
          digits ((s :: bs).drop (if s == '+' || s == '-' then 1 else 0)) := by
        split
        · exact StopsAtColon.digits.eq h
        · exact StopsAtColon.digits.eq h.cons
      unfold exponent
      dsimp only
      rw [hdigits]

theorem based_toColon : based as = based bs := by
  have hne {c : Char} {cs : List Char} (hc : c ≠ '0') : based (c :: cs) = 0 := by
    rw [based]
    rintro _ _ heq
    exact hc (List.cons.inj heq).1
  cases h with
  | here => rfl
  | @cons c as bs h =>
    by_cases hc : c = '0'
    · subst hc
      cases h with
      | here => rfl
      | @cons d as bs h =>
        have hhex := (StopsAtColon.takeWhile (p := isHexDigit) (by decide)).eq h
        rw [based, based, hhex]
    · rw [hne hc, hne hc]

theorem fraction_toColon : fraction as = fraction bs := by
  obtain ⟨w, as, bs, rfl, rfl, has, hbs, hrest⟩ := StopsAtColon.decimal _ _ h
  unfold fraction
  rw [has, hbs, drop_left, drop_left]
  generalize w.length = n
  cases hrest with
  | here => cases n <;> rfl
  | @cons c as bs hrest =>
    by_cases hc : c = '.'
    · subst hc
      obtain ⟨w', as, bs, rfl, rfl, has', hbs', hrest⟩ := StopsAtColon.decimal _ _ hrest
      have hexponent : exponent ((w' ++ as).drop w'.length) =
          exponent ((w' ++ bs).drop w'.length) := by
        rw [drop_left, drop_left, exponent_toColon hrest]
      cases n with
      | zero =>
        simp only [has', hbs']
        generalize w'.length = m at hexponent
        cases m with
        | zero => rfl
        | succ m => exact congrArg (1 + (m + 1) + ·) hexponent
      | succ n => simp only [has', hbs', hexponent]
    · cases n <;> simp [hc, exponent_toColon hrest.cons]

theorem numberRule_toColon : numberRule as = numberRule bs := by
  rw [numberRule, numberRule, based_toColon h, fraction_toColon h, StopsAtColon.decimal.eq h]

theorem blankRule_toColon : blankRule as = blankRule bs := by
  have hblank := (StopsAtColon.takeWhile (p := isBlank) (by decide)).eq h
  rw [blankRule, blankRule, hblank]

theorem closeTagRule_toColon : closeTagRule as = closeTagRule bs := by
  cases h with
  | here => rfl
  | @cons c as bs h =>
    cases h with
    | here => simp [closeTagRule]
    | @cons d as bs h =>
      by_cases hc : c = '?'
      · by_cases hd : d = '>'
        · rw [hc, hd, closeTagRule, closeTagRule]
        · simp [closeTagRule, hd]
      · simp [closeTagRule, hc]

theorem castRule_toColon : castRule as = castRule bs := by
  cases h with
  | here => rfl
  | @cons c as bs h =>
    by_cases hc : c = '('
    · subst hc
      obtain ⟨lead, as, bs, rfl, rfl, has, hbs, hword⟩ :=
        StopsAtColon.takeWhile (p := Text.isTabOrSpace) (by decide) _ _ h
      obtain ⟨word, as, bs, rfl, rfl, has', hbs', htrail⟩ := StopsAtColon.identLength _ _ hword
      obtain ⟨trail, as, bs, rfl, rfl, has'', hbs'', hclose⟩ :=
        StopsAtColon.takeWhile (p := Text.isTabOrSpace) (by decide) _ _ htrail
      simp only [castRule, has, hbs, drop_left, has', hbs', take_left, has'', hbs'']
      cases hclose with
      | here => rfl
      | @cons c as bs _ =>
        by_cases hc : c = ')'
        · rw [hc]
          rfl
        · simp [hc]
    · simp [castRule, hc]

theorem nameRule_toColon : nameRule as = nameRule bs := by
  cases h with
  | here => rfl
  | @cons c as bs h =>
    refine ite_congr rfl (fun _ => ?_) fun _ => ite_congr rfl (fun _ => ?_) fun _ => ?_
    · rw [StopsAtColon.identLength.eq h]
    · obtain ⟨word, as, bs, rfl, rfl, has, hbs, h⟩ := StopsAtColon.identLength _ _ h
      have hparts : nameParts ((word ++ as).drop word.length) =
          nameParts ((word ++ bs).drop word.length) := by
        rw [drop_left, drop_left, StopsAtColon.nameParts.eq h]
      rw [has, hbs]
      generalize word.length = n at hparts
      cases n with
      | zero => rfl
      | succ n => exact congrArg (fun m => some (TokenKind.name, 1 + (n + 1) + m)) hparts
    · obtain ⟨word, as', bs', has', hbs', has, hbs, h⟩ :=
        StopsAtColon.identLength _ _ (h.cons (c := c))
      rw [has, hbs, has', hbs']
      have hparts : nameParts ((word ++ as').drop word.length) =
          nameParts ((word ++ bs').drop word.length) := by
        rw [drop_left, drop_left, StopsAtColon.nameParts.eq h]
      have hword : (word ++ as').take word.length = (word ++ bs').take word.length := by
        rw [take_left, take_left]
      generalize word.length = n at hparts hword
      cases n with
      | zero => rfl
      | succ n =>
        simp only [hparts, hword]

theorem openTagRule_toColon : openTagRule as = openTagRule bs := by
  cases h with
  | here => rfl
  | @cons c as bs h =>
    by_cases hc : c = '<'
    · subst hc
      cases h with
      | here => rfl
      | @cons c as bs h =>
        by_cases hc : c = '?'
        · subst hc
          obtain ⟨word, as', bs', has', hbs', has, hbs, -⟩ := StopsAtColon.identLength _ _ h
          have hhead := h.head?
          have htag {cs : List Char} (hcs : cs.head? ≠ some '=') :
              openTagRule ('<' :: '?' :: cs) =
                if lowerWord (cs.take (Text.identLength cs)) == "php" then
                  some (.openTag, Text.identLength cs + 2)
                else none := by
            rw [openTagRule]
            rintro _ rfl
            exact hcs rfl
          by_cases hecho : as.head? = some '='
          · obtain ⟨as, rfl⟩ := head?_eq_some_iff.mp hecho
            obtain ⟨bs, rfl⟩ := head?_eq_some_iff.mp (hhead ▸ hecho)
            rfl
          · rw [htag hecho, htag (hhead ▸ hecho), has, hbs, has', hbs', take_left,
              take_left]
        · simp [openTagRule, hc]
    · simp [openTagRule, hc]

/-- `signRule` reads a sign other than the colon itself. -/
theorem signRule_toColon {c : Char} : signRule (c :: as) = signRule (c :: bs) := by
  have hsigns : ∀ sign ∈ signs, ':' ∉ sign.1.toList.tail.dropLast := by decide
  have hfind : ∀ signs : List (String × TokenKind),
      (∀ sign ∈ signs, ':' ∉ sign.1.toList.tail.dropLast) →
      (signs.find? fun sign => starts sign.1 (c :: as)) =
        signs.find? fun sign => starts sign.1 (c :: bs) := by
    intro signs hsigns
    induction signs with
    | nil => rfl
    | cons sign signs ih =>
      obtain ⟨hsign, hsigns⟩ := forall_mem_cons.mp hsigns
      rw [find?_cons, find?_cons, ih hsigns, starts, starts, h.isPrefixOf hsign]
  unfold signRule
  rw [hfind signs hsigns, starts, starts, h.isPrefixOf (by decide)]

/-! ## Comments and strings -/

omit h in
theorem lineTail_cons (c : Char) (cs : List Char) : lineTail (c :: cs) =
    if (c = '?' ∧ cs.head? = some '>') ∨ endsLine c = true then 0 else lineTail cs + 1 := by
  by_cases htag : c = '?' ∧ cs.head? = some '>'
  · obtain ⟨rfl, hhead⟩ := htag
    obtain ⟨cs, rfl⟩ := head?_eq_some_iff.mp hhead
    rw [if_pos (.inl ⟨rfl, rfl⟩), lineTail]
  · rw [lineTail.eq_3 _ _ fun rest hc hcs => htag ⟨hc, by rw [hcs]; rfl⟩]
    by_cases hends : endsLine c = true
    · rw [if_pos hends, if_pos (.inr hends)]
    · rw [if_neg hends, if_neg (not_or.mpr ⟨htag, hends⟩)]

variable {text cs ds : List Char} {n : Nat} {kind : TokenKind}

theorem lineTail_toColon (htail : lineTail (text ++ as) = text.length) :
    lineTail (text ++ bs) = text.length := by
  induction text with
  | nil =>
    cases h with
    | here => simp [lineTail_cons, endsLine] at htail
    | @cons c as bs h =>
      rw [nil_append, lineTail_cons, h.head?] at htail
      rw [nil_append, lineTail_cons]
      split
      · rfl
      · next hgo => simp [hgo] at htail
  | cons c text ih =>
    rw [cons_append, lineTail_cons, (h.append text).head?] at htail
    rw [cons_append, lineTail_cons]
    split
    · next hstop =>
      rw [if_pos hstop] at htail
      exact htail
    · next hgo =>
      rw [if_neg hgo] at htail
      rw [ih (Nat.succ.inj htail), length_cons]

omit h in
theorem two_le_throughClose (hclose : throughClose cs = some n) : 2 ≤ n := by
  fun_induction throughClose cs generalizing n with
  | case1 => cases hclose
  | case2 => cases hclose; exact Nat.le_refl 2
  | case3 c cs _ ih =>
    obtain ⟨m, hm, rfl⟩ := Option.map_eq_some_iff.mp hclose
    exact Nat.le_succ_of_le (ih hm)

omit h in
/-- `throughClose` looks only at the characters up to the sign that closes the comment. -/
theorem throughClose_of_take (hclose : throughClose cs = some n) (htake : cs.take n <+: ds) :
    throughClose ds = some n := by
  fun_induction throughClose cs generalizing ds n with
  | case1 => cases hclose
  | case2 cs =>
    cases hclose
    obtain ⟨rest, rfl⟩ := htake
    rfl
  | case3 c cs hopen ih =>
    obtain ⟨m, hm, rfl⟩ := Option.map_eq_some_iff.mp hclose
    rw [take_succ_cons] at htake
    obtain ⟨rest, rfl⟩ := htake
    rw [cons_append, throughClose.eq_3, ih hm ⟨rest, rfl⟩, Option.map_some]
    rintro tail rfl hslash
    -- the sign that closes would have to start with the star
    obtain ⟨k, rfl⟩ := Nat.exists_eq_add_one.mpr (Nat.zero_lt_of_lt (two_le_throughClose hm))
    cases cs with
    | nil => cases hm
    | cons d cs => exact hopen cs rfl (by rw [(List.cons.inj hslash).1])

omit h in
theorem throughQuote_of_take {quote : Char} (hclose : throughQuote quote cs = some n)
    (htake : cs.take n <+: ds) :
    throughQuote quote ds = some n := by
  fun_induction throughQuote quote cs generalizing ds n with
  | case1 => cases hclose
  | case2 => cases hclose
  | case3 c hslash d rest ih =>
    obtain ⟨m, hm, rfl⟩ := Option.map_eq_some_iff.mp hclose
    obtain ⟨tail, rfl⟩ := htake
    rw [take_succ_cons, take_succ_cons, cons_append, cons_append,
      throughQuote, if_pos hslash, ih hm ⟨tail, rfl⟩, Option.map_some]
  | case4 c cs hslash hquote =>
    cases hclose
    obtain ⟨tail, rfl⟩ := htake
    rw [take_succ_cons, cons_append, throughQuote.eq_def]
    dsimp only
    rw [if_neg hslash, if_pos hquote]
  | case5 c cs hslash hquote ih =>
    obtain ⟨m, hm, rfl⟩ := Option.map_eq_some_iff.mp hclose
    obtain ⟨tail, rfl⟩ := htake
    rw [take_succ_cons, cons_append, throughQuote.eq_def]
    dsimp only
    rw [if_neg hslash, if_neg hquote, ih hm ⟨tail, rfl⟩, Option.map_some]

omit h in
theorem commentRule_hash (hhead : cs.head? ≠ some '[') :
    commentRule ('#' :: cs) = some (.lineComment, lineTail cs + 1) := by
  rw [commentRule]
  rintro _ rfl
  exact hhead rfl

theorem commentRule_toColon (hrule : commentRule (text ++ as) = some (kind, text.length)) :
    commentRule (text ++ bs) = some (kind, text.length) := by
  rcases commentRule_spec hrule with ⟨rest, hcut, rfl, hlen⟩ | ⟨rest, hcut, hhead, rfl, hlen⟩ |
    ⟨rest, n, hcut, hclose, rfl, hlen⟩
  · obtain _ | ⟨s, _ | ⟨t, text⟩⟩ := text
    · cases hlen
    · cases hlen
    · obtain ⟨rfl, rfl, rfl⟩ : s = '/' ∧ t = '/' ∧ text ++ as = rest := by simpa using hcut
      have htail := lineTail_toColon h (by simpa using hlen.symm)
      rw [hlen, cons_append, cons_append, commentRule, htail]
      simpa using hlen
  · obtain _ | ⟨s, text⟩ := text
    · cases hlen
    · obtain ⟨rfl, rfl⟩ : s = '#' ∧ text ++ as = rest := by simpa using hcut
      have htail := lineTail_toColon h (by simpa using hlen.symm)
      rw [(h.append text).head?] at hhead
      rw [cons_append, commentRule_hash hhead, htail, length_cons]
  · obtain _ | ⟨s, _ | ⟨t, text⟩⟩ := text
    · cases hlen
    · cases hlen
    · obtain ⟨rfl, rfl, rfl⟩ : s = '/' ∧ t = '*' ∧ text ++ as = rest := by simpa using hcut
      obtain rfl : text.length = n := by simpa using hlen
      have hsame : throughClose (text ++ bs) = some text.length :=
        throughClose_of_take hclose (by rw [take_left]; exact prefix_append _ _)
      have hkind : blockKind (text ++ bs) = blockKind (text ++ as) := by
        obtain _ | ⟨s, _ | ⟨t, text⟩⟩ := text
        · exact absurd (two_le_throughClose hclose) (by simp)
        · exact absurd (two_le_throughClose hclose) (by simp)
        · by_cases hstar : s = '*'
          · rw [hstar]
            rfl
          · simp [blockKind, hstar]
      rw [cons_append, cons_append, commentRule_block, hsame, hkind]
      rfl

theorem commentRule_toColon_none (hrule : commentRule as = none) : commentRule bs = none := by
  by_contra hsome
  obtain ⟨⟨kind, n⟩, hread⟩ := Option.ne_none_iff_exists'.mp hsome
  obtain ⟨more, rfl⟩ := h.isPrefix
  rcases commentRule_spec hread with ⟨rest, rfl, -⟩ | ⟨rest, rfl, hhead, -⟩ |
    ⟨rest, n, rfl, hclose, -⟩
  · cases hrule
  · cases h with
    | cons h =>
      rw [← h.head?] at hhead
      exact nomatch (commentRule_hash hhead).symm.trans hrule
  · rw [cons_append, cons_append, commentRule_block, throughClose_of_take hclose
      ((List.take_prefix _ _).trans (prefix_append _ _))] at hrule
    cases hrule

omit h in
theorem stringRule_toColon (hrule : stringRule (text ++ as) = some (kind, text.length)) :
    stringRule (text ++ bs) = some (kind, text.length) := by
  obtain _ | ⟨c, text⟩ := text
  · obtain _ | ⟨c, as⟩ := as
    · cases hrule
    · rw [nil_append, stringRule] at hrule
      split at hrule
      · obtain ⟨n, -, heq⟩ := Option.map_eq_some_iff.mp hrule
        cases heq
      · cases hrule
  · rw [cons_append, stringRule] at hrule ⊢
    split at hrule
    · next hquote =>
      obtain ⟨n, hread, heq⟩ := Option.map_eq_some_iff.mp hrule
      obtain ⟨rfl, hlen⟩ := Prod.mk.inj heq
      obtain rfl := Nat.succ.inj hlen
      rw [if_pos hquote, throughQuote_of_take hread
        (by rw [take_left]; exact prefix_append _ _), Option.map_some, length_cons]
    · cases hrule

theorem stringRule_toColon_none (hrule : stringRule as = none) : stringRule bs = none := by
  cases h with
  | here => rfl
  | @cons c as bs h =>
    by_cases hquote : isQuote c = true
    · rw [stringRule, if_pos hquote, Option.map_eq_none_iff] at hrule ⊢
      by_contra hsome
      obtain ⟨n, hread⟩ := Option.ne_none_iff_exists'.mp hsome
      rw [throughQuote_of_take hread ((List.take_prefix _ _).trans h.isPrefix)] at hrule
      cases hrule
    · rw [stringRule, if_neg hquote]

/-! ## Modes -/

theorem codeRule_toColon (hne : text ≠ [])
    (hrule : codeRule (text ++ as) = some (kind, text.length)) :
    codeRule (text ++ bs) = some (kind, text.length) := by
  have hall := h.append text
  have hsign : signRule (text ++ as) = signRule (text ++ bs) := by
    obtain ⟨c, text, rfl⟩ := exists_cons_of_ne_nil hne
    exact signRule_toColon (h.append text)
  simp only [codeRule, Option.orElse_eq_orElse, Option.orElse_eq_or, Option.or_eq_some_iff]
    at hrule ⊢
  rw [closeTagRule_toColon hall, blankRule_toColon hall, castRule_toColon hall,
    numberRule_toColon hall, nameRule_toColon hall, hsign] at hrule
  -- only comments and strings look past a colon
  exact hrule.imp_right <| .imp_right <| .imp_right <| .imp_right <|
    .imp (commentRule_toColon h) <| .imp (commentRule_toColon_none hall) <| .imp_right <|
    .imp_right <| .imp_right <| .imp_right <| .imp stringRule_toColon <|
    .imp_left <| stringRule_toColon_none hall

theorem markupLength_toColon (hlen : markupLength (text ++ as) = text.length) :
    markupLength (text ++ bs) = text.length := by
  induction text with
  | nil =>
    cases h with
    | here => cases hlen
    | @cons c as bs h =>
      rw [nil_append, markupLength, openTagRule_toColon h.cons] at hlen
      rw [nil_append, markupLength]
      split
      · rfl
      · next htag =>
        rw [if_neg htag] at hlen
        cases hlen
  | cons c text ih =>
    rw [cons_append, markupLength, openTagRule_toColon (h.append text).cons] at hlen
    rw [cons_append, markupLength]
    split
    · next htag =>
      rw [if_pos htag] at hlen
      exact hlen
    · next htag =>
      rw [if_neg htag] at hlen
      rw [ih (Nat.succ.inj hlen), length_cons]

theorem markupRule_toColon (hrule : markupRule (text ++ as) = some (kind, text.length)) :
    markupRule (text ++ bs) = some (kind, text.length) := by
  simp only [markupRule, Option.orElse_eq_orElse, Option.orElse_eq_or, Option.or_eq_some_iff]
    at hrule ⊢
  rw [openTagRule_toColon (h.append text)] at hrule
  refine hrule.imp_right (.imp_right fun hmarkup => ?_)
  have hlen : markupLength (text ++ as) = text.length := by
    split at hmarkup
    · cases hmarkup
    · exact (Prod.mk.inj (Option.some.inj hmarkup)).2
  rw [markupLength_toColon h hlen]
  rwa [hlen] at hmarkup

end Lexeme

namespace Lexer

variable {mode : Mode} {xs ys : List Lexeme} {c : Lexeme} {cs : List Char}

theorem Lexes.text_of_colon (h : Lexes mode (xs ++ c :: ys) cs) (hkind : c.kind = .colon) :
    c.text = [':'] := by
  obtain ⟨rest, hrule⟩ := h.family_rule (mem_append_right _ (.head _))
    (by rw [hkind]; decide)
  rw [hkind] at hrule
  obtain ⟨sign, hmem, hstarts, hlen⟩ := Lexeme.signRule_spec hrule
  have hsigns : ∀ p ∈ Lexeme.signs, p.2 = .colon → p.1 = ":" := by decide
  obtain rfl := hsigns _ hmem rfl
  obtain ⟨s, hs⟩ := length_eq_one_iff.mp hlen
  rw [hs] at hstarts ⊢
  have hcons : [':'] <+: s :: rest := isPrefixOf_iff_prefix.mp hstarts
  rw [(cons_prefix_cons.mp hcons).1]

/-- `Lexes` of a text up to a colon has the lexemes up to there, whatever follows. -/
theorem Lexes.up_to_colon (h : Lexes mode (xs ++ c :: ys) cs) (hkind : c.kind = .colon) :
    Lexes mode (xs ++ [c]) ((xs ++ [c]).flatMap Lexeme.text) := by
  have htext := h.text_of_colon hkind
  induction xs generalizing mode cs with
  | nil =>
    obtain ⟨rest, -, hne, hrule, -⟩ := h.rule_at
    rw [nil_append, flatMap_cons]
    refine .cons hne ?_ .nil
    rw [htext, hkind] at hrule ⊢
    cases mode with
    | markup => cases Lexeme.isMarkup_of_markupRule hrule
    | code => decide +kernel
  | cons x xs ih =>
    rw [cons_append] at h
    cases h with
    | @cons _ _ _ rest hne hrule hrest =>
      have hcolon : ToColon rest ((xs ++ [c]).flatMap Lexeme.text) := by
        rw [← hrest.flatMap_text, flatMap_append, flatMap_append, flatMap_cons,
          flatMap_singleton, htext]
        exact .append _ .here
      refine .cons hne ?_ (ih hrest)
      cases mode with
      | markup => exact Lexeme.markupRule_toColon hcolon hrule
      | code => exact Lexeme.codeRule_toColon hcolon hne hrule

end Lexer

end CodeLayout
