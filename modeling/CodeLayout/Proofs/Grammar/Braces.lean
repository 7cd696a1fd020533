import CodeLayout.Proofs.Grammar.Productions

/-!
# Braces come in pairs

Where a rule reports nothing, the braces among the symbols that it passes come in pairs
(`pairs_run`).  So a search for the brace that closes an open one finds the end of what the rules
read behind the open one.
-/

namespace CodeLayout.Grammar

/-! ## Depth -/

/-- The depth of braces behind the tokens, if none is closed that was not opened. -/
def braceDepth : Nat → List TokenKind → Option Nat
  | depth, [] => some depth
  | depth, kind :: kinds =>
    if kind = .blockBegin then braceDepth (depth + 1) kinds
    else if kind = .blockEnd then
      if depth = 0 then none else braceDepth (depth - 1) kinds
    else braceDepth depth kinds

theorem braceDepth_append (depth : Nat) (kinds kinds' : List TokenKind) :
    braceDepth depth (kinds ++ kinds') =
      (braceDepth depth kinds).bind fun depth' => braceDepth depth' kinds' := by
  induction kinds generalizing depth with
  | nil => rfl
  | cons kind kinds ih =>
    simp only [List.cons_append, braceDepth, ih]
    split
    · rfl
    · split
      · split <;> rfl
      · rfl

variable {depth depth' : Nat} {kinds : List TokenKind} {α : Type} {p : Parse α} {input : Input}

/-- `braceDepth` may start some braces deeper. -/
theorem braceDepth_succ (h : braceDepth depth kinds = some depth') :
    braceDepth (depth + 1) kinds = some (depth' + 1) := by
  induction kinds generalizing depth with
  | nil =>
    cases h
    rfl
  | cons kind kinds ih =>
    simp only [braceDepth] at h ⊢
    split
    · next hopen =>
      rw [if_pos hopen] at h
      exact ih h
    · next hopen =>
      rw [if_neg hopen] at h
      split
      · next hclose =>
        rw [if_pos hclose] at h
        split at h
        · cases h
        · next hdepth =>
          obtain ⟨d, rfl⟩ := Nat.exists_eq_succ_of_ne_zero hdepth
          exact ih h
      · next hclose =>
        rw [if_neg hclose] at h
        exact ih h

/-- `callAfterBraces` passes what leads from one depth to another. -/
theorem callAfterBraces_append (h : braceDepth depth kinds = some depth') (rest : List TokenKind) :
    callAfterBraces (depth + 1) (kinds ++ rest) = callAfterBraces (depth' + 1) rest := by
  induction kinds generalizing depth with
  | nil =>
    cases h
    rfl
  | cons kind kinds ih =>
    simp only [braceDepth] at h
    rw [List.cons_append]
    split at h
    · next hopen =>
      subst hopen
      exact ih h
    · next hopen =>
      split at h
      · next hclose =>
        subst hclose
        split at h
        · cases h
        · next hdepth =>
          rw [callAfterBraces, if_neg (by omega), ← ih h]
          congr 1
          omega
      · next hclose =>
        rw [callAfterBraces, ih h]
        · exact hopen
        · exact hclose

/-- The braces come in pairs. -/
def Paired (kinds : List TokenKind) : Prop := braceDepth 0 kinds = some 0

namespace Paired

variable {kinds : List TokenKind}

theorem append {kinds' : List TokenKind} (h : Paired kinds) (h' : Paired kinds') :
    Paired (kinds ++ kinds') := by
  rw [Paired, braceDepth_append, h]
  exact h'

theorem cons {kind : TokenKind} (hkind : kind ∉ Tree.braces) (h : Paired kinds) :
    Paired (kind :: kinds) := by
  rw [Paired, braceDepth, if_neg, if_neg]
  · exact h
  · rintro rfl
    exact hkind (by decide)
  · rintro rfl
    exact hkind (by decide)

theorem braced (h : Paired kinds) : Paired (.blockBegin :: (kinds ++ [.blockEnd])) := by
  rw [Paired, braceDepth, if_pos rfl, braceDepth_append, braceDepth_succ h]
  rfl

end Paired

/-! ## Rules -/

/-- Where the kinds of the symbols ahead are the given ones and the parse reports nothing, it passes
braces in pairs. -/
def Pairs {α : Type} (kinds : List TokenKind) (p : Parse α) : Prop :=
  ∀ input s, input.kindsAt s.position = kinds → Clean (after p input s) → Clean s ∧
    ∃ passed, Paired passed ∧ kinds = passed ++ input.kindsAt (after p input s).position

theorem Pairs.bind {β : Type} {F : α → Parse β} (hp : Pairs kinds p)
    (hF : ∀ x kinds', Pairs kinds' (F x)) : Pairs kinds (p >>= F) := by
  intro input s hkinds hclean
  rw [after_bind] at hclean ⊢
  obtain ⟨hmid, passed', hpassed', hrest'⟩ := hF _ _ input _ rfl hclean
  obtain ⟨hs, passed, hpassed, hrest⟩ := hp input s hkinds hmid
  exact ⟨hs, passed ++ passed', hpassed.append hpassed', by rw [hrest, hrest', List.append_assoc]⟩

theorem Pairs.of_after_eq (hp : ∀ input s, after p input s = s) : Pairs kinds p := by
  intro input s hkinds hclean
  rw [hp] at hclean ⊢
  exact ⟨hclean, [], rfl, hkinds.symm⟩

theorem Pairs.repeating {step : Parse Bool} (hstep : ∀ kinds', Pairs kinds' step) :
    Pairs kinds (repeating step) := by
  have hloop (n : Nat) : ∀ kinds', Pairs kinds' (repeatUpTo step n) := by
    induction n with
    | zero => exact fun _ _ _ _ h => absurd h not_clean_cutOff
    | succ n ih =>
      refine fun kinds' => (hstep kinds').bind fun x kinds' => ?_
      split
      · exact ih kinds'
      · exact .of_after_eq fun _ _ => rfl
  exact fun input s => hloop (input.symbols.size + 1) kinds input s

/-- `skipBraces` passes what leads up to the brace that closes them. -/
theorem skipBraces_depth {s : State} (n depth : Nat)
    (hclean : Clean (after (skipBraces n (depth + 1)) input s))
    (hclose : input.kind? (after (skipBraces n (depth + 1)) input s).position = some .blockEnd) :
    Clean s ∧ ∃ passed, braceDepth depth passed = some 0 ∧ input.kindsAt s.position =
      passed ++ input.kindsAt (after (skipBraces n (depth + 1)) input s).position := by
  induction n generalizing depth s with
  | zero => exact absurd hclean not_clean_cutOff
  | succ n ih =>
    -- a symbol is passed, and the rest is skipped from the depth behind it
    have hpass {kind : TokenKind} {depth' : Nat} (hseen : input.kind? s.position = some kind)
        (hdepth : ∀ kinds, braceDepth depth (kind :: kinds) = braceDepth depth' kinds) {s' : State}
        (hs' : s' = after (bump >>= fun _ => skipBraces n (depth' + 1)) input s) (hclean : Clean s')
        (hclose : input.kind? s'.position = some .blockEnd) :
        Clean s ∧ ∃ passed, braceDepth depth passed = some 0 ∧
          input.kindsAt s.position = passed ++ input.kindsAt s'.position := by
      rw [after_bind, after_bump_seen hseen] at hs'
      subst hs'
      obtain ⟨hs, passed, hpassed, hrest⟩ := ih depth' hclean hclose
      exact ⟨hs, kind :: passed, (hdepth passed).trans hpassed,
        (kindsAt_eq_cons hseen).trans (congrArg _ hrest)⟩
    revert hclean hclose
    rw [skipBraces, after_look rfl, answer_peek]
    split
    · next hend =>
      intro _ hclose
      rw [after_pure, hend] at hclose
      cases hclose
    · next hseen => exact hpass hseen (fun _ => rfl) rfl
    · next hseen =>
      split
      · next hdepth =>
        obtain rfl : depth = 0 := by omega
        exact fun hclean _ => ⟨hclean, [], rfl, rfl⟩
      · next hdepth =>
        obtain ⟨d, rfl⟩ : ∃ d, depth = d + 1 := ⟨depth - 1, by omega⟩
        exact hpass hseen (fun _ => rfl) rfl
    · next hopen hend hseen =>
      refine hpass hseen (fun _ => ?_) rfl
      rw [braceDepth, if_neg, if_neg]
      · exact fun h => hend h
      · exact fun h => hopen h

theorem kindsAt_braced {i j : Nat} {inner : List TokenKind}
    (hopen : input.kind? i = some .blockBegin) (hclose : input.kind? j = some .blockEnd)
    (hinner : input.kindsAt (i + 1) = inner ++ input.kindsAt j) :
    input.kindsAt i = .blockBegin :: (inner ++ [.blockEnd]) ++ input.kindsAt (j + 1) := by
  rw [kindsAt_eq_cons hopen, hinner, kindsAt_eq_cons hclose]
  simp

/-- Parses that are `Alike`, built from rules which pass braces in pairs, do so too. -/
theorem Alike.pairs {f g : Rules} {calls : Bool} {N : NodeKind → Prop} {m n : Nat} {q : Parse α}
    (h : Alike f g calls N kinds m n p q) (hf : ∀ rule kinds, Pairs kinds (f rule)) :
    Pairs kinds p := by
  induction h with
  | pure x => exact .of_after_eq fun _ _ => rfl
  | look hp h ih =>
    intro input s hkinds hclean
    rw [after_bind, hp.same] at hclean ⊢
    exact ih _ ⟨input, s, hkinds, rfl⟩ input s hkinds hclean
  | next hkind h ih =>
    intro input s hkinds hclean
    have hseen := (kindsAt_head? input s.position).symm.trans (congrArg List.head? hkinds)
    rw [after_bind, after_bump_seen hseen] at hclean ⊢
    obtain ⟨hs, passed, hpassed, hrest⟩ := ih input _
      (by rw [← kindsAt_tail, hkinds]; rfl) hclean
    exact ⟨hs, _, hpassed.cons hkind, congrArg _ hrest⟩
  | @braced _ _ _ _ _ opening p _ hopen h ih =>
    intro input s hkinds hclean
    rw [after_bind, after_bind] at hclean ⊢
    obtain ⟨hclose, hlast⟩ := expect_clean hclean
    rw [hlast, after_bump_seen hclose] at hclean ⊢
    obtain ⟨hs, inner, hinner, hrest⟩ := ih _ input _ rfl hclean
    obtain ⟨hseen, hfirst⟩ := hopen.clean hkinds hs
    rw [hfirst, after_bump_seen hseen] at hs hrest
    refine ⟨hs, _, hinner.braced, ?_⟩
    rw [hfirst, after_bump_seen hseen] at hclose ⊢
    exact hkinds ▸ kindsAt_braced hseen hclose hrest
  | @skipped _ _ kinds _ _ =>
    intro input s hkinds hclean
    have hseen : input.kind? s.position = some .blockBegin := by rw [← kindsAt_head?, hkinds]; rfl
    rw [after_bind, after_bind, after_bump_seen hseen] at hclean ⊢
    obtain ⟨hclose, hlast⟩ := expect_clean hclean
    rw [hlast, after_bump_seen hclose] at hclean ⊢
    obtain ⟨hs, inner, hinner, hrest⟩ := skipBraces_depth (input.symbols.size + 1) 0 hclean hclose
    exact ⟨hs, _, Paired.braced hinner, hkinds ▸ kindsAt_braced hseen hclose hrest⟩
  | bind hp h ihp ih => exact ihp.bind ih
  | @of_eq _ _ _ _ _ _ p p' _ _ hp hq h ih =>
    intro input s hkinds hclean
    have hafter : after p input s = after p' input s := congrArg Prod.snd (hp input s hkinds)
    rw [hafter] at hclean ⊢
    exact ih input s hkinds hclean
  | refuses hp => exact fun input s hkinds hclean => absurd hclean (hp input s hkinds)
  | @nodeOf _ _ _ _ _ kind _ _ hmade hkind h ih =>
    exact fun input s => ih input { s with builder := s.builder.start kind }
  | @wrapOf _ _ _ m _ kind _ _ hmade hkind h ih =>
    exact fun input s => ih input { s with builder := s.builder.startAt m kind }
  | marker h ih => exact fun input s => ih _ 0 input s
  | repeating h ih => exact .repeating ih
  | guarded h ih =>
    intro input s hkinds hclean
    obtain ⟨hp, hmoved⟩ := guarded_clean hclean
    rw [after_guarded_clean hp hmoved]
    exact ih input s hkinds hp
  | ruleOf rule _ => exact hf rule _
  | operand h ih => exact ih

/-- `Rule.run` passes braces in pairs, for all rules. -/
theorem pairs_run (depth : Nat) (rule : Rule) (kinds : List TokenKind) :
    Pairs kinds (Rule.run depth rule) := by
  induction depth generalizing rule kinds with
  | zero => exact fun _ _ _ h => absurd h not_clean_cutOff
  | succ depth ih => exact (rule.alike_body : Alike _ (Rule.run depth) true _ _ 0 0 _ _).pairs ih

end CodeLayout.Grammar
