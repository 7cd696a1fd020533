import CodeLayout.Proofs.Grammar.Agreement
import CodeLayout.Proofs.Grammar.Braces
import CodeLayout.Proofs.Grammar.Whole

/-!
# Calls of members

Whether a member is called is told from the symbols ahead, before its name is read.  For a name that
is one symbol and for one in braces the guess is right: where an argument list follows, the access
is the call of a member.  Behind a dollar sign it looks at the wrong symbol, so that an access may
become what is called (`ofSource_calls`).
-/

namespace CodeLayout

open List

namespace Tree

/-- The tree is an access to a member that is not called. -/
def IsAccess (t : Tree) : Prop := t.kind? = some .propertyFetch ∨ t.kind? = some .staticAccess

/-- The last of the trees is a name that is computed from what follows a dollar sign. -/
def EndsInDollar (kindOf : Nat → Option TokenKind) (cs : List Tree) : Prop :=
  ∃ front name sign rest, cs = front ++ [name] ∧ name.kind? = some .dynamicName ∧
    name.children = sign :: rest ∧ sign.IsSign kindOf .dollar

/-- What is called is no access to a member, unless its name stands behind a dollar sign. -/
def CallsMembers (kindOf : Nat → Option TokenKind) (kind : NodeKind) (cs : List Tree) : Prop :=
  kind = .callExpr → ∀ t ∈ cs.head?, t.IsAccess → EndsInDollar kindOf t.children

end Tree

namespace Grammar

open CodeLayout.Tree (Spot Good EndsInDollar CallsMembers)

section Tidy

variable {α β : Type} {A : Input} {s : State} {f : Rules} {N : NodeKind → Prop}
  {Q R S : List Tree → Prop}

/-- From the state on, the parse adds trees of which `Q` holds, if it ends without a problem; then
there was none at its start. -/
def Tidy (A : Input) (Q : List Tree → Prop) (p : Parse α) (s : State) : Prop :=
  Clean (after p A s) → Clean s ∧ ∀ spot ts, s.builder.Has spot ts →
    ∃ us, (after p A s).builder.Has spot (ts ++ us) ∧ Q us

/-- In all trees, only members behind a dollar sign are accessed and then called. -/
abbrev Sound (A : Input) (N : NodeKind → Prop) : List Tree → Prop := Good (CallsMembers A.kind?) N

variable {p : Parse α} {called : Bool} {since : Nat} {kind : NodeKind}

theorem Agrees.tidy
    (h : ∀ m n, Agrees A A 0 (CallsMembers A.kind?) N (A.kindsAt s.position) m n p p) :
    Tidy A (Sound A N) p s := by
  intro hclean
  have hs := (h 0 0 s s rfl hclean).1
  refine ⟨hs, fun spot ts hts => ?_⟩
  obtain ⟨-, us, hus, hgood⟩ := (h _ _ s s rfl hclean).2 _ _ [] rfl rfl
    ⟨hts.behind, hts.behind, rfl, hs⟩ .nil
  exact ⟨us, Tree.Builder.has_behind.mp hus.has, hgood⟩

/-- What is `Tidy` in one parse is known of the trees of both. -/
theorem Agrees.of_tidy {B : Input} {k m n : Nat} {kinds : List TokenKind} {q : Parse α}
    (h : Agrees A B k (fun _ _ => True) anyNode kinds m n p q)
    (hp : ∀ s, A.kindsAt s.position = kinds → Tidy A (Sound A N) p s) :
    Agrees A B k (CallsMembers A.kind?) N kinds m n p q := by
  intro s t hkinds hclean
  obtain ⟨hs, hadd⟩ := hp s hkinds hclean
  refine ⟨hs, fun here there ts hm hn hts hgood => ?_⟩
  obtain ⟨hanswer, ts', hts', -⟩ := (h s t hkinds hclean).2 here there ts hm hn hts
    fun t _ => ⟨Tree.every_of_inherited (I := fun _ => True)
      (fun _ _ _ _ => ⟨trivial, fun _ _ => trivial⟩) t trivial, fun _ _ => trivial⟩
  obtain ⟨us, hus, hgood'⟩ := hadd here ts hts.has
  obtain rfl := hts'.has.unique hus
  exact ⟨hanswer, _, hts', hgood.append hgood'⟩

namespace Tidy

variable {p : Parse α} {F : α → Parse β} {kind : TokenKind}

theorem mono (h : Tidy A Q p s) (hQ : ∀ ts, Q ts → R ts) : Tidy A R p s := by
  intro hclean
  obtain ⟨hs, hadd⟩ := h hclean
  refine ⟨hs, fun spot ts hts => ?_⟩
  obtain ⟨us, hus, hq⟩ := hadd spot ts hts
  exact ⟨us, hus, hQ us hq⟩

theorem bind (hp : Tidy A Q p s) (hF : Tidy A R (F (answer p A s)) (after p A s))
    (hS : ∀ ts us, Q ts → R us → S (ts ++ us)) :
    Tidy A S (p >>= F) s := by
  intro hclean
  obtain ⟨hmid, hnext⟩ := hF hclean
  obtain ⟨hs, hfirst⟩ := hp hmid
  refine ⟨hs, fun spot ts hts => ?_⟩
  obtain ⟨us, hus, hq⟩ := hfirst spot ts hts
  obtain ⟨vs, hvs, hr⟩ := hnext spot (ts ++ us) hus
  exact ⟨us ++ vs, append_assoc ts us vs ▸ hvs, hS us vs hq hr⟩

/-- `Tidy` for one parse after the other, of whose trees the same is known. -/
theorem andThen (hp : Tidy A (Sound A N) p s)
    (hF : Tidy A (Sound A N) (F (answer p A s)) (after p A s)) : Tidy A (Sound A N) (p >>= F) s :=
  hp.bind hF fun _ _ => .append

theorem node {kind : NodeKind} {body : Parse Unit}
    (h : Tidy A Q body { s with builder := s.builder.start kind }) :
    Tidy A (fun us => ∃ cs, us = [.branch kind cs] ∧ Q cs) (node kind body) s := by
  intro hclean
  obtain ⟨hs, hadd⟩ := h hclean
  refine ⟨hs, fun spot ts hts => ?_⟩
  obtain ⟨cs, hcs, hq⟩ := hadd _ _ (hts.start kind)
  exact ⟨_, Tree.Builder.has_behind.mp hcs.finish, cs, rfl, hq⟩

/-- `Tidy` for a parse that passes one symbol. -/
theorem pass {p : Parse Unit} (h : Clean (after p A s) → ∃ kind, A.kind? s.position = some kind ∧
    after p A s = after bump A s) :
    Tidy A (fun us => us = [.leaf s.position 1]) p s := by
  intro hclean
  obtain ⟨kind, hseen, hafter⟩ := h hclean
  rw [hafter, after_bump_seen hseen] at hclean ⊢
  exact ⟨hclean, fun spot ts hts => ⟨_, hts.token _ _, rfl⟩⟩

theorem bump (hseen : A.kind? s.position = some kind) :
    Tidy A (fun us => us = [.leaf s.position 1]) bump s := .pass fun _ => ⟨kind, hseen, rfl⟩

theorem sound {p : Parse Unit} (h : Tidy A (fun us => us = [.leaf s.position 1]) p s) :
    Tidy A (Sound A N) p s :=
  h.mono fun _ hus => hus ▸ .leaf

theorem expect : Tidy A (Sound A N) (expect kind) s :=
  .sound (.pass fun hclean => ⟨kind, expect_clean hclean⟩)

end Tidy

/-! ## Names of members -/

theorem expectMemberName_clean (h : Clean (after expectMemberName A s)) :
    ∃ kind, A.kind? s.position = some kind ∧
      after expectMemberName A s = after bump A s := by
  rw [expectMemberName, after_look rfl, answer_peek] at h ⊢
  cases hseen : A.kind? s.position with
  | none =>
    rw [hseen] at h
    obtain ⟨hname, -⟩ := expect_clean h
    rw [hseen] at hname
    cases hname
  | some kind =>
    rw [hseen] at h
    dsimp only at h ⊢
    refine ⟨kind, rfl, ?_⟩
    split
    · rfl
    · next hword =>
      rw [if_neg hword] at h
      exact (expect_clean h).2

/-- `callAhead` looks for the brace that closes a member in braces. -/
theorem answer_callAhead (A : Input) (s : State) : answer callAhead A s =
    if A.kind? (s.position + 1) = some .blockBegin then
      callAfterBraces 1 (A.kindsAt (s.position + 2))
    else A.kind? (s.position + 2) == some .parenBegin := by
  have hall : (answer (ahead A.symbols.size) A s).drop 2 = A.kindsAt (s.position + 2) := by
    rw [answer_ahead, take_of_length_le, Input.kindsAt, Input.kindsAt, ← map_drop,
      Input.rest, drop_drop]
    · rfl
    · rw [Input.kindsAt, Input.rest, length_map, length_drop, Array.length_toList]
      omega
  have hanswer : answer callAhead A s =
      if (A.kind? (s.position + 1) == some .blockBegin) = true then
        callAfterBraces 1 ((answer (ahead A.symbols.size) A s).drop 2)
      else A.kind? (s.position + 2) == some .parenBegin := by
    rw [callAhead, answer_look rfl]
    split
    · next hopen => exact (if_pos hopen).symm
    · next hopen => exact (if_neg hopen).symm
  rw [hanswer, hall]
  simp only [beq_iff_eq]

/-- A name in braces. -/
def bracedName (call : Rules) : Parse Unit := do
  bump
  call.expr
  expect .blockEnd

/-- `bracedName` ends where the search for its closing brace does. -/
theorem bracedName_clean (hpairs : ∀ kinds, Pairs kinds f.expr)
    (hopen : A.kind? s.position = some .blockBegin)
    (hclean : Clean (after (bracedName f) A s)) :
    (A.kind? (after (bracedName f) A s).position == some .parenBegin) =
      callAfterBraces 1 (A.kindsAt (s.position + 1)) := by
  rw [bracedName, after_bind, after_bind, after_bump_seen hopen] at hclean ⊢
  obtain ⟨hclose, hlast⟩ := expect_clean hclean
  rw [hlast, after_bump_seen hclose] at hclean ⊢
  obtain ⟨-, passed, hpassed, hrest⟩ := hpairs _ A _ rfl hclean
  rw [hrest, callAfterBraces_append hpassed, kindsAt_eq_cons hclose, callAfterBraces,
    if_pos (by omega), kindsAt_head?]

/-- What is known of the rules that operands call. -/
structure Tidies (A : Input) (f : Rules) : Prop where
  rule : ∀ rule s, Tidy A (Sound A rule.makes) (f rule) s
  pairs : ∀ rule kinds, Pairs kinds (f rule)
  dollar : ∀ s, A.kind? s.position = some .dollar →
    Tidy A (EndsInDollar A.kind?) (f .primary) s

theorem Tidies.any (hf : Tidies A f) (rule : Rule) (s : State) :
    Tidy A (Sound A anyNode) (f rule) s :=
  (hf.rule rule s).mono fun _ h => h.mono fun _ _ => trivial

/-- The trees of a name are sound, and behind them the guess whether they are called is right,
unless a dollar sign starts the name. -/
def Told (A : Input) (called : Bool) (s : State) (us : List Tree) : Prop :=
  Sound A anyNode us ∧
    (called = false → EndsInDollar A.kind? us ∨ A.kind? s.position ≠ some .parenBegin)

/-- `Told` for a name of one symbol, behind which no argument list was seen. -/
theorem tidy_pass {p : Parse Unit}
    (hcall : called = false → A.kind? (s.position + 1) ≠ some .parenBegin)
    (hp : Clean (after p A s) → ∃ kind, A.kind? s.position = some kind ∧
      after p A s = after bump A s) : Tidy A (Told A called (after p A s)) p s := by
  intro hclean
  obtain ⟨kind, hseen, hafter⟩ := hp hclean
  refine (Tidy.pass hp).mono (fun us hus => ⟨hus ▸ .leaf, fun hnone => .inr ?_⟩) hclean
  rw [hafter, after_bump_seen hseen]
  exact hcall hnone

/-- `Told` for a name in braces, behind which no argument list was seen. -/
theorem tidy_bracedName (hf : Tidies A f) (hopen : A.kind? s.position = some .blockBegin)
    (hcall : called = callAfterBraces 1 (A.kindsAt (s.position + 1))) :
    Tidy A (Told A called (after (node .dynamicName (bracedName f)) A s))
      (node .dynamicName (bracedName f)) s := by
  intro hclean
  have hbody : Tidy A (Sound A anyNode) (bracedName f)
      { s with builder := s.builder.start .dynamicName } := by
    refine Tidy.andThen (.sound (.bump hopen)) ?_
    exact (hf.any _ _).andThen .expect
  refine hbody.node.mono ?_ hclean
  rintro _ ⟨cs, rfl, hcs⟩
  refine ⟨.branch nofun trivial hcs, fun hnone => .inr ?_⟩
  have hbehind := bracedName_clean (fun kinds => hf.pairs _ kinds)
    (s := { s with builder := s.builder.start .dynamicName }) hopen hclean
  rw [← hcall, hnone] at hbehind
  exact beq_eq_false_iff_ne.mp hbehind

/-- Behind a sign of access, the guess whether a call follows is right, unless a dollar sign starts
the name. -/
theorem tidy_member (hf : Tidies A f) {sign : TokenKind} (hsign : A.kind? s.position = some sign) :
    Tidy A (Told A (answer callAhead A s) (after (bump >>= fun _ => memberName f) A s))
      (bump >>= fun _ => memberName f) s := by
  refine (Tidy.bump hsign).bind (R := Told A (answer callAhead A s)
    (after (memberName f) A (after bump A s))) ?_ ?_
  · rw [answer_callAhead, after_bump_seen hsign]
    unfold Tidy
    rw [memberName, after_look rfl, answer_peek]
    dsimp only
    split
    · next hseen =>
      refine tidy_pass (fun hnone => ?_) fun _ => ⟨_, hseen, rfl⟩
      simpa [hseen] using hnone
    · next hseen => exact tidy_bracedName hf hseen (if_pos hseen)
    · next hseen =>
      intro hclean
      obtain ⟨hs, hadd⟩ := hf.any .primary _ hclean
      refine ⟨hs, fun spot ts hts => ?_⟩
      obtain ⟨us, hus, hgood⟩ := hadd spot ts hts
      obtain ⟨us', hus', hdollar⟩ := (hf.dollar _ hseen hclean).2 spot ts hts
      obtain rfl := append_cancel_left (hus.unique hus')
      exact ⟨us, hus, hgood, fun _ => .inl hdollar⟩
    · next hopen _ =>
      refine tidy_pass (fun hnone => ?_) expectMemberName_clean
      simpa [if_neg hopen] using hnone
  · rintro _ us rfl ⟨hgood, hend⟩
    refine ⟨Good.leaf.append hgood, fun hcall => (hend hcall).imp_left ?_⟩
    rintro ⟨front, name, dollar, rest, rfl, hname⟩
    exact ⟨_ :: front, name, dollar, rest, rfl, hname⟩

/-! ## Operands -/

/-- The trees of an operand are sound, and it is no access that could be called from here, unless a
dollar sign starts the name of the member. -/
def Uncalled (A : Input) (s : State) (ts : List Tree) : Prop :=
  Sound A anyNode ts ∧ ∀ t ∈ ts.head?, t.IsAccess →
    EndsInDollar A.kind? t.children ∨ A.kind? s.position ≠ some .parenBegin

/-- The parse keeps the operand since the marker so. -/
def KeepsUncalled (A : Input) (since : Nat) (p : Parse α) (s : State) : Prop :=
  Clean (after p A s) → Clean s ∧ ∀ spot ts, spot.children.size = since → s.builder.Has spot ts →
    Uncalled A s ts → ∃ ts', (after p A s).builder.Has spot ts' ∧ Uncalled A (after p A s) ts'

theorem KeepsUncalled.pure {x : α} : KeepsUncalled A since (pure x : Parse α) s :=
  fun hclean => ⟨hclean, fun _ ts _ hts huncalled => ⟨ts, hts, huncalled⟩⟩

theorem KeepsUncalled.look {F : α → Parse β} (hp : after p A s = s)
    (h : KeepsUncalled A since (F (answer p A s)) s) : KeepsUncalled A since (p >>= F) s := by
  unfold KeepsUncalled
  rwa [after_look hp]

theorem KeepsUncalled.thenPure {x : β} (h : KeepsUncalled A since p s) :
    KeepsUncalled A since (p >>= fun _ => Pure.pure x) s := h

theorem KeepsUncalled.wrap {body : Parse Unit}
    (h : Tidy A Q body { s with builder := s.builder.startAt since kind })
    (hQ : ∀ ts us, Uncalled A s ts → Q us →
      Uncalled A (after (wrap since kind body) A s) [.branch kind (ts ++ us)]) :
    KeepsUncalled A since (wrap since kind body) s := by
  intro hclean
  obtain ⟨hs, hadd⟩ := h hclean
  refine ⟨hs, fun spot ts hsize hts huncalled => ?_⟩
  subst hsize
  obtain ⟨us, hus, hq⟩ := hadd _ ts (hts.startAt kind)
  exact ⟨_, hus.finish, hQ ts us huncalled hq⟩

/-- `wrap` into a node that is neither a call nor an access leaves nothing to ask. -/
theorem KeepsUncalled.wrap_plain {body : Parse Unit}
    (hkind : kind ≠ .callExpr ∧ kind ≠ .propertyFetch ∧ kind ≠ .staticAccess)
    (h : Tidy A (Sound A anyNode) body { s with builder := s.builder.startAt since kind }) :
    KeepsUncalled A since (Grammar.wrap since kind body) s := by
  refine .wrap h fun ts us huncalled hus => ⟨?_, ?_⟩
  · exact .branch (fun hcall => absurd hcall hkind.1) trivial (huncalled.1.append hus)
  · rintro _ ⟨⟩ (haccess | haccess)
    · exact absurd (Option.some.inj haccess) hkind.2.1
    · exact absurd (Option.some.inj haccess) hkind.2.2

theorem keepsUncalled_call (hf : Tidies A f) (hseen : A.kind? s.position = some .parenBegin) :
    KeepsUncalled A since (wrap since .callExpr (f .arguments)) s := by
  refine .wrap (hf.rule .arguments _) fun ts us ⟨hgood, huncalled⟩ hus => ⟨?_, ?_⟩
  · refine .branch (fun _ t ht haccess => ?_) trivial
      (hgood.append (hus.mono fun _ _ => trivial))
    cases ts with
    | nil =>
      -- the arguments alone are no access
      have hkind := (hus t (mem_of_head? ht)).2
      rcases haccess with haccess | haccess <;> cases hkind _ haccess
    | cons t' ts => exact (huncalled t ht haccess).resolve_right fun h => h hseen
  · rintro _ ⟨⟩ (haccess | haccess) <;> cases haccess

theorem keepsUncalled_access (hf : Tidies A f) {plain called : NodeKind} {sign : TokenKind}
    (hsign : A.kind? s.position = some sign) (hplain : plain ≠ .callExpr)
    (hcalled : called ≠ .callExpr ∧ called ≠ .propertyFetch ∧ called ≠ .staticAccess) :
    KeepsUncalled A since (memberAccess f since plain called) s := by
  have hmember {kind : NodeKind} := tidy_member hf
    (s := { s with builder := s.builder.startAt since kind }) hsign
  refine .look (looks_callAhead.same A s) ?_
  split
  · refine KeepsUncalled.wrap_plain hcalled ?_
    show Tidy A _ ((bump >>= fun _ => memberName f) >>= fun _ => f .arguments) _
    exact (hmember.mono fun _ h => h.1).andThen (hf.any _ _)
  · next hcall =>
    refine KeepsUncalled.wrap hmember fun ts us ⟨hgood, _⟩ ⟨hus, hend⟩ => ⟨?_, ?_⟩
    · exact .branch (fun h => absurd h hplain) trivial (hgood.append hus)
    · rintro _ ⟨⟩ -
      have hsame : answer callAhead A { s with builder := s.builder.startAt since plain } =
          answer callAhead A s := looks_callAhead.ahead rfl rfl
      refine (hend (hsame.trans (Bool.eq_false_of_not_eq_true hcall))).imp_left ?_
      rintro ⟨front, name, dollar, rest, rfl, hname⟩
      exact ⟨ts ++ front, name, dollar, rest, (append_assoc ..).symm, hname⟩

theorem keepsUncalled_postfixStep (hf : Tidies A f) (since : Nat) (s : State) :
    KeepsUncalled A since (postfixStep f since) s := by
  have hindex {s : State} (hseen : A.kind? s.position = some .arrayBegin) :
      Tidy A (Sound A anyNode) (do
        bump
        if !(← check .arrayEnd) then f.expr
        expect .arrayEnd) s := by
    refine Tidy.andThen (.sound (.bump hseen)) ?_
    unfold Tidy
    rw [after_look rfl]
    split
    · exact (hf.any _ _).andThen .expect
    · exact Tidy.expect
  refine .look rfl ?_
  rw [answer_peek]
  split
  · next hseen => exact (keepsUncalled_call hf hseen).thenPure
  · next hseen => exact .thenPure (keepsUncalled_access hf hseen nofun ⟨nofun, nofun, nofun⟩)
  · next hseen => exact .thenPure (keepsUncalled_access hf hseen nofun ⟨nofun, nofun, nofun⟩)
  · next hseen => exact .thenPure (keepsUncalled_access hf hseen nofun ⟨nofun, nofun, nofun⟩)
  · next hseen => exact .thenPure (.wrap_plain ⟨nofun, nofun, nofun⟩ (hindex hseen))
  · next hseen =>
    exact .thenPure (.wrap_plain ⟨nofun, nofun, nofun⟩ (.sound (.bump hseen)))
  · next hseen =>
    exact .thenPure (.wrap_plain ⟨nofun, nofun, nofun⟩ (.sound (.bump hseen)))
  · exact .pure

theorem KeepsUncalled.repeating {step : Parse Bool} (hstep : ∀ s, KeepsUncalled A since step s)
    (s : State) :
    KeepsUncalled A since (repeating step) s := by
  have hloop (n : Nat) : ∀ s, KeepsUncalled A since (repeatUpTo step n) s := by
    induction n with
    | zero => exact fun _ hclean => absurd hclean not_clean_cutOff
    | succ n ih =>
      intro s hclean
      rw [repeatUpTo, after_bind] at hclean ⊢
      have hrest : KeepsUncalled A since (if answer step A s = true then repeatUpTo step n
          else Pure.pure ())
          (after step A s) := by
        split
        · exact ih _
        · exact .pure
      obtain ⟨hmid, hnext⟩ := hrest hclean
      obtain ⟨hs, hfirst⟩ := hstep s hmid
      refine ⟨hs, fun spot ts hsize hts huncalled => ?_⟩
      obtain ⟨ts', hts', huncalled'⟩ := hfirst spot ts hsize hts huncalled
      exact hnext spot ts' hsize hts' huncalled'
  exact hloop (A.symbols.size + 1) s

theorem tidy_operand (hf : Tidies A f) (s : State) : Tidy A (Sound A anyNode) (operand f) s := by
  intro hclean
  obtain ⟨hmid, hrest⟩ :=
    KeepsUncalled.repeating (keepsUncalled_postfixStep hf s.builder.marker) _ hclean
  obtain ⟨hs, hfirst⟩ := hf.rule .primary s hmid
  refine ⟨hs, fun spot ts hts => ?_⟩
  obtain ⟨us, hus, hgood⟩ := hfirst _ [] hts.behind
  -- a primary expression is no access
  have huncalled : Uncalled A (after (f .primary) A s) us := by
    refine ⟨hgood.mono fun _ _ => trivial, fun t ht haccess => ?_⟩
    have hkind := (hgood t (mem_of_head? ht)).2
    exact (haccess.elim (fun h => (hkind _ h).1 rfl) fun h => (hkind _ h).2 rfl).elim
  obtain ⟨us', hus', hgood', -⟩ := hrest _ us hts.marker.symm hus huncalled
  exact ⟨us', Tree.Builder.has_behind.mp hus', hgood'⟩

/-! ## Rules -/

/-- What follows a dollar sign. -/
def dollarRest (call : Rules) : Parse Unit := do
  if ← eat .blockBegin then
    call.expr
    expect .blockEnd
  else call .primary

theorem tidy_dollar (hagrees : ∀ kinds m n, Agrees A A 0 (CallsMembers A.kind?) anyNode kinds m n
      (dollarRest f) (dollarRest f)) (hseen : A.kind? s.position = some .dollar) :
    Tidy A (EndsInDollar A.kind?) (primary f) s := by
  unfold Tidy
  rw [primary, after_look rfl, answer_peek, hseen]
  have hbody := (Tidy.bump (s := { s with builder := s.builder.start .dynamicName }) hseen).bind
    (F := fun _ => dollarRest f) (Agrees.tidy (hagrees _))
    (S := fun cs => ∃ rest, cs = .leaf s.position 1 :: rest)
    (by rintro _ us rfl -; exact ⟨us, rfl⟩)
  refine hbody.node.mono ?_
  rintro _ ⟨_, rfl, rest, rfl⟩
  exact ⟨[], _, _, rest, rfl, rfl, rfl, hseen⟩

theorem callsMembers_of_ne (kind : NodeKind) (cs : List Tree)
    (h : kind = .callExpr → false = true) : CallsMembers A.kind? kind cs :=
  fun hkind => absurd (h hkind) (by decide)

theorem agrees_operand {depth : Nat} (hf : Tidies A (Rule.run depth)) (kinds : List TokenKind)
    (m n : Nat) : Agrees A A 0 (CallsMembers A.kind?) anyNode kinds m n (operand (Rule.run depth))
      (operand (Rule.run depth)) := by
  refine .of_tidy ?_ fun s _ => tidy_operand hf s
  exact (alike_operand : Alike _ _ true _ _ m n _ _).agrees (.refl A) (fun _ _ _ => trivial)
    (agrees_run (.refl A) (Nat.le_refl depth)) nofun

/-- `Rule.run` is tidy, for all rules. -/
theorem tidies_run (A : Input) (depth : Nat) : Tidies A (Rule.run depth) ∧
    ∀ rule kinds m n, Agrees A A 0 (CallsMembers A.kind?) rule.makes kinds m n
      (Rule.run depth rule) (Rule.run depth rule) := by
  induction depth with
  | zero =>
    refine ⟨⟨?_, pairs_run 0, ?_⟩, ?_⟩
    · exact fun _ _ hclean => absurd hclean not_clean_cutOff
    · exact fun _ _ hclean => absurd hclean not_clean_cutOff
    · exact fun _ _ _ _ _ _ _ hclean => absurd hclean not_clean_cutOff
  | succ depth ih =>
    obtain ⟨htidies, hrules⟩ := ih
    have hbody (rule : Rule) (kinds : List TokenKind) (m n : Nat) :
        Agrees A A 0 (CallsMembers A.kind?) rule.makes kinds m n (Rule.run (depth + 1) rule)
          (Rule.run (depth + 1) rule) :=
      (rule.alike_body : Alike _ _ false _ _ m n _ _).agrees (.refl A) callsMembers_of_ne hrules
        fun _ => agrees_operand htidies
    refine ⟨⟨fun rule s => Agrees.tidy (hbody rule _), pairs_run _, fun s hseen => ?_⟩, hbody⟩
    refine tidy_dollar (fun kinds m n => ?_) hseen
    exact Alike.agrees (.eatBraces (fun _ => .expr) (.rule .primary)) (.refl A) callsMembers_of_ne
      hrules fun _ => agrees_operand htidies

end Tidy

/-- Without problems, only members behind a dollar sign are accessed and then called. -/
theorem parse_callsMembers {input : Input} (h : (parse input).problems = #[]) :
    (parse input).tree.Every (CallsMembers input.kind?) := by
  have hclean : Clean (finalState input) := ⟨h, (parse_complete input).2⟩
  obtain ⟨htidies, hrules⟩ := tidies_run input (depthBound input)
  have htidy : Tidy input (Sound input anyNode) (statements (depthBound input)) startState :=
    Agrees.tidy fun m n => (alike_statements : Alike _ _ false _ _ m n _ _).agrees (.refl input)
      callsMembers_of_ne hrules fun _ => agrees_operand htidies
  obtain ⟨ts, hts, hgood⟩ := (htidy hclean).2 root [] rfl
  rw [tree_of_has hts, Tree.every_branch]
  exact ⟨nofun, fun t ht => (hgood t ht).1⟩

end Grammar

/-! ## Parsed sources -/

namespace Parsed

theorem callsMembers_relabelAll {xs : List Lexeme} {f : Nat → Nat × Nat}
    (hf : ∀ i, (f i).1 = tokenAt (placed xs) (Significant.ofTokens (placed xs)) i)
    {kind : NodeKind} {cs : List Tree} (h : Tree.CallsMembers (input (placed xs)).kind? kind cs) :
    Tree.CallsMembers (kindOf (placed xs)) kind (Tree.relabelAll f cs) := by
  intro hkind t ht haccess
  rw [Tree.relabelAll_eq_map, head?_map] at ht
  obtain ⟨u, hu, rfl⟩ := Option.map_eq_some_iff.mp ht
  rw [Tree.IsAccess, Tree.kind?_relabel] at haccess
  obtain ⟨front, name, sign, rest, hchildren, hname, hrest, hsign⟩ := h hkind u hu haccess
  refine ⟨front.map (Tree.relabel f), name.relabel f, sign.relabel f, rest.map (Tree.relabel f), ?_,
    (Tree.kind?_relabel f name).trans hname, ?_, isSign_relabel ⟨hf, kindOf_last xs⟩ hsign⟩
  · rw [Tree.children_relabel, hchildren, map_append, map_singleton]
  · rw [Tree.children_relabel, hrest, map_cons]

/-- In a source without syntax problems, an access to a member is followed by an argument list only
where a dollar sign starts the name of the member: any other is the call of a member as a whole. -/
theorem ofSource_calls {source : String} {parsed : Parsed} (h : ofSource source = .ok parsed)
    (herrors : parsed.errors = []) :
    parsed.tree.Every (Tree.CallsMembers (kindOf parsed.tokens)) := by
  obtain ⟨xs, -, rfl⟩ := ofSource_eq_ok_iff.mp h
  have hproblems : (Grammar.parse
      (symbols (placed xs) (Significant.ofTokens (placed xs)))).problems = #[] := by
    simpa [ofTokens] using herrors
  refine Tree.every_relabel (fun _ _ hcs => ?_) _ (Grammar.parse_callsMembers hproblems)
  exact callsMembers_relabelAll (fun _ => rfl) hcs

/-- Names in braces, of one symbol and behind a dollar sign: the first two members are called as a
whole, and the third is accessed and then called. -/
theorem ofSource_calls_names :
    let source := "<?php $a->\x7b$b['c']\x7d(); A::$d(); $e?->$$f();"
    ∃ parsed, ofSource source = .ok parsed ∧ parsed.errors = [] ∧
      (parsed.tree.subtrees.filter (·.kind?.any NodeKind.isCall)).map
          (fun call => (call.kind?, call.children.map Tree.kind?)) =
        [(some .methodCall, [none, none, some .dynamicName, some .argList]),
          (some .staticCall, [none, none, none, some .argList]),
          (some .callExpr, [some .propertyFetch, some .argList])] ∧
      parsed.tree.Every (Tree.CallsMembers (kindOf parsed.tokens)) := by
  intro source
  have hparsed : (ofSource source).toOption.any (fun parsed => parsed.errors.isEmpty &&
      (parsed.tree.subtrees.filter (·.kind?.any NodeKind.isCall)).map
          (fun call => (call.kind?, call.children.map Tree.kind?)) ==
        [(some .methodCall, [none, none, some .dynamicName, some .argList]),
          (some .staticCall, [none, none, none, some .argList]),
          (some .callExpr, [some .propertyFetch, some .argList])]) = true := by decide +kernel
  obtain ⟨parsed, h, hcheck⟩ := exists_ok_of_any hparsed
  obtain ⟨herrors, hcalls⟩ := Bool.and_eq_true_iff.mp hcheck
  have herrors : parsed.errors = [] := List.isEmpty_iff.mp herrors
  exact ⟨parsed, h, herrors, beq_iff_eq.mp hcalls, ofSource_calls h herrors⟩

/-- Behind a dollar sign, an access to a member can be what is called. -/
theorem ofSource_called_access : (ofSource "<?php $a->$$b();").toOption.any (fun parsed =>
    parsed.errors.isEmpty && parsed.tree.subtrees.any fun call =>
      call.isKind .callExpr && call.children.head?.any (·.isKind .propertyFetch)) = true := by
  decide +kernel

end Parsed

end CodeLayout
