import CodeLayout.Proofs.Grammar.Agreement
import CodeLayout.Proofs.Grammar.Whole

/-!
# Attributes before a function

Attributes in front of the declaration of a function become its first children, and the rest of the
declaration is parsed as it is without them, unless the symbols ahead are taken for a closure.  They
are where the first function ahead, which may stand inside of an attribute, has no name
(`parse_attributedFunction`).
-/

namespace CodeLayout.Grammar

open List

open CodeLayout.Tree (Spot Good)

/-- The symbols ahead are taken for an expression that starts with a closure. -/
def ClosureSeen (kinds : List TokenKind) : Prop :=
  pastModifiers lookaheadLimit 0 kinds ∈ [some .functionKw, some .fnKw] ∧
    closureAhead lookaheadLimit kinds = true

instance (kinds : List TokenKind) : Decidable (ClosureSeen kinds) :=
  inferInstanceAs (Decidable (_ ∧ _))

/-- The symbols that a statement is told by. -/
def Input.lookahead (input : Input) (position : Nat) : List TokenKind :=
  (input.kindsAt position).take (lookaheadLimit + 3)

/-- The state behind the attributes at the start. -/
def groupsState (input : Input) : State :=
  after (attributeGroups (Rule.run (depthBound input))) input startState

/-- The state behind the first statement. -/
def firstState (input : Input) : State :=
  after (statement (Rule.run (depthBound input))) input startState

/-- One statement, unless the end is reached. -/
def oneStatement (depth : Nat) : Parse Bool := do
  if ← atEnd then return false
  statement (Rule.run depth)
  return true

section Start

variable {input : Input} {s : State} {f : Rules} {kind : TokenKind}

/-! ## A single statement -/

variable {n depth : Nat}

theorem after_repeatUpTo_stop {step : Parse Bool} (h : answer step input s = false) :
    after (repeatUpTo step (n + 1)) input s = after step input s := by
  rw [after_repeatUpTo_succ, h, if_neg Bool.false_ne_true, after_pure]

theorem after_statements (hseen : input.kind? s.position = some kind) :
    after (repeatUpTo (oneStatement depth) (n + 1)) input s =
      after (repeatUpTo (oneStatement depth) n) input
        (after (statement (Rule.run depth)) input s) := by
  have hgo : ¬ answer atEnd input s = true := by simp [hseen]
  have hanswer : answer (oneStatement depth) input s = true := by
    rw [oneStatement, answer_look rfl, if_neg hgo, answer_bind]
    rfl
  rw [after_repeatUpTo_succ, hanswer, if_pos rfl, oneStatement, after_look rfl, if_neg hgo,
    after_bind, after_pure]

theorem after_statements_end (hend : input.kind? s.position = none) :
    after (repeatUpTo (oneStatement depth) (n + 1)) input s = s := by
  have hstop : answer atEnd input s = true := by simp [hend]
  rw [after_repeatUpTo_stop, oneStatement, after_look rfl, if_pos hstop, after_pure]
  rw [oneStatement, answer_look rfl, if_pos hstop]
  rfl

theorem finalState_eq (hstart : input.kind? 0 = some kind) :
    ∃ n, finalState input =
      after (repeatUpTo (oneStatement (depthBound input)) (n + 1)) input (firstState input) := by
  obtain ⟨n, hn⟩ : ∃ n, input.symbols.size = n + 1 :=
    Nat.exists_eq_succ_of_ne_zero (Nat.ne_of_gt (lt_size_of_kind? hstart))
  refine ⟨n, ?_⟩
  rw [← hn]
  exact after_statements hstart

/-- Where the program has one child, its first statement (`firstState`) reaches the end. -/
theorem ends_of_single (hstart : input.kind? 0 = some kind) (hclean : Clean (finalState input))
    (hone : (parse input).tree.children.length = 1) :
    input.kind? (firstState input).position = none := by
  by_contra hmore
  obtain ⟨kind', hseen⟩ := Option.ne_none_iff_exists'.mp hmore
  obtain ⟨n, hn⟩ := finalState_eq hstart
  rw [after_statements hseen] at hn
  have hstatement := yieldsNode_statement (rulesForm_run (depthBound input))
  have hrest : Yields anyLeaf (repeatUpTo (oneStatement (depthBound input)) n) :=
    .repeatUpTo (.cond .atEnd .pure (.seq hstatement.yields .pure)) n
  -- backwards through the loop and the two statements in front of it
  rw [hn] at hclean
  obtain ⟨hsecond, haddrest⟩ := hrest input _ hclean
  obtain ⟨hfirst, haddsecond⟩ := hstatement input _ hsecond
  obtain ⟨-, haddfirst⟩ := hstatement input _ hfirst
  obtain ⟨_, hts, t, rfl, -⟩ := haddfirst ⟨.program, #[]⟩ [] [] ⟨rfl, nofun⟩
  obtain ⟨_, hts, u, rfl, -⟩ := haddsecond _ _ _ hts
  obtain ⟨us, hts, -⟩ := haddrest _ _ _ hts
  have hroot : (finalState input).builder.Has root (t :: u :: us) := by
    rw [hn, Tree.Builder.Has, hts.frames]
    simp [root]
  rw [tree_of_has hroot] at hone
  cases hone

/-! ## Declarations of functions -/

theorem after_repeating_stop {step : Parse Bool} (hanswer : answer step input s = false)
    (hafter : after step input s = s) : after (repeating step) input s = s :=
  (after_repeatUpTo_stop hanswer).trans hafter

/-- `repeating` with a look ahead leaves all as it is where it does not see what it looks for. -/
theorem after_repeating_unseen {look : Parse Bool} {body : Parse Unit}
    (hlook : after look input s = s) (hunseen : ¬ answer look input s = true) :
    after (repeating do
      if ← look then
        body
        return true
      return false) input s = s := by
  refine after_repeating_stop ?_ ?_
  · rw [answer_look hlook, if_neg hunseen]
    rfl
  · rw [after_look hlook, if_neg hunseen, after_pure]

theorem attributeGroups_none (hseen : input.kind? s.position ≠ some .attributeStart) :
    after (attributeGroups f) input s = s :=
  after_repeating_unseen rfl (by simpa using hseen)

/-- `declaration` goes by what follows the attributes: here, a function is declared. -/
theorem after_declaration
    (hseen : input.kind? (after (attributeGroups f) input s).position = some .functionKw) :
    after (declaration f) input s = after (wrap s.builder.marker .functionDecl (functionRest f))
      input (after (attributeGroups f) input s) := by
  have hmodifiers : after modifiers input (after (attributeGroups f) input s) =
      after (attributeGroups f) input s := by
    refine after_repeating_unseen rfl ?_
    show ¬ ((input.kind? (after (attributeGroups f) input s).position).map
      TokenKind.isModifier).getD false = true
    rw [hseen]
    decide
  rw [declaration, after_look rfl, after_bind, after_bind, hmodifiers, after_look rfl, answer_peek,
    hseen]
  rfl

/-- `plainStatement` takes a function or an attribute for the start of a declaration, or of an
expression. -/
theorem after_plainStatement (hseen : input.kind? s.position = some .functionKw ∨
      input.kind? s.position = some .attributeStart) :
    after (plainStatement f) input s = after (if ClosureSeen (input.lookahead s.position) then
      exprStmt f else declaration f) input s := by
  have hhead : (input.lookahead s.position).head? = input.kind? s.position := by
    rw [← kindsAt_head?, Input.lookahead]
    cases input.kindsAt s.position <;> rfl
  rw [plainStatement, after_look ((looks_ahead _).same input s), answer_ahead]
  rw [Input.lookahead] at hhead ⊢
  generalize (input.kindsAt s.position).take (lookaheadLimit + 3) = kinds at hhead ⊢
  have hiff (hpast : pastModifiers lookaheadLimit 0 kinds ∈ [some .functionKw, some .fnKw]) :
      (if closureAhead lookaheadLimit kinds = true then exprStmt f else declaration f) =
        if ClosureSeen kinds then exprStmt f else declaration f :=
    if_congr (and_iff_right hpast).symm rfl rfl
  dsimp only
  rw [hhead]
  rcases hseen with hseen | hseen
  · rw [hseen] at hhead ⊢
    obtain ⟨rest, rfl⟩ := head?_eq_some_iff.mp hhead
    exact congrArg (after · input s) (hiff mem_cons_self)
  · rw [hseen]
    dsimp only
    split
    · next hpast => rw [hiff (by rw [hpast]; decide)]
    · next hpast => rw [hiff (by rw [hpast]; decide)]
    · next hfunction hfn =>
      have hother : ¬ ClosureSeen kinds := by
        rintro ⟨hpast, -⟩
        simp only [mem_cons, not_mem_nil, or_false] at hpast
        exact hpast.elim hfunction hfn
      rw [if_neg hother]

/-- What is added at the start consists of nodes of the kinds in `N`, and of leaves. -/
theorem added_of_alike {p : Parse Unit} {N : NodeKind → Prop}
    (h : ∀ kinds, Alike (Rule.run depth) (Rule.run depth) true N kinds 0 0 p p)
    (hclean : Clean (after p input startState)) :
    ∃ ts, (after p input startState).builder.Has root ts ∧
      ∀ t ∈ ts, ∀ kind, t.kind? = some kind → N kind := by
  obtain ⟨-, hadd⟩ := (h _).agrees (.refl input) (fun _ _ _ => trivial)
    (agrees_run (.refl input) (Nat.le_refl depth)) nofun startState startState rfl hclean
  obtain ⟨-, ts, hts, hgood⟩ := hadd root root [] rfl rfl ⟨rfl, rfl, rfl, rfl, rfl⟩ .nil
  exact ⟨ts, hts.has, fun t ht => (hgood t ht).2⟩

/-- A program that is a `functionDecl` was not taken for an expression. -/
theorem finalState_declaration (hseen : input.kind? 0 = some .functionKw ∨
      input.kind? 0 = some .attributeStart) (hproblems : (parse input).problems = #[])
    (hdecl : (parse input).tree.children.map Tree.kind? = [some .functionDecl]) :
    ¬ ClosureSeen (input.lookahead 0) ∧ input.kind? (finalState input).position = none ∧
      finalState input = after (declaration (Rule.run (depthBound input))) input startState := by
  have hclean : Clean (finalState input) := ⟨hproblems, (parse_complete input).2⟩
  obtain ⟨kind, hstart⟩ : ∃ kind, input.kind? 0 = some kind := hseen.elim (⟨_, ·⟩) (⟨_, ·⟩)
  have hend := ends_of_single hstart hclean (by simpa using congrArg List.length hdecl)
  obtain ⟨n, hn⟩ := finalState_eq hstart
  rw [after_statements_end hend] at hn
  obtain ⟨hplain, hmoved⟩ := guarded_clean (hn ▸ hclean)
  have hfirst : finalState input = after (if ClosureSeen (input.lookahead 0) then
      exprStmt (Rule.run (depthBound input)) else declaration (Rule.run (depthBound input))) input
        startState :=
    hn.trans ((after_guarded_clean hplain hmoved).trans (after_plainStatement hseen))
  have hnot : ¬ ClosureSeen (input.lookahead 0) := by
    -- the only child would be a statement of an expression
    intro hclosure
    rw [if_pos hclosure] at hfirst
    obtain ⟨ts, hts, hkinds⟩ := added_of_alike (N := (· = .exprStmt)) (fun _ => alike_exprStmt rfl)
      (hfirst ▸ hclean)
    rw [tree_of_has (hfirst ▸ hts)] at hdecl
    obtain ⟨t, rfl, ht⟩ := map_eq_singleton_iff.mp hdecl
    cases hkinds t mem_cons_self _ ht
  rw [if_neg hnot] at hfirst
  exact ⟨hnot, hn ▸ hend, hfirst⟩

/-- Attributes are trees of the kind `attributeGroup`. -/
theorem has_groups (hclean : Clean (groupsState input)) :
    ∃ groups, (groupsState input).builder.Has root groups ∧
      ∀ t ∈ groups, t.kind? = some .attributeGroup := by
  obtain ⟨groups, hhas, hkinds⟩ := added_of_alike (N := (· = .attributeGroup))
    (fun _ => alike_attributeGroups rfl) hclean
  obtain ⟨more, hmore, hbare⟩ := (yields_attributeGroups (A := noLeaf) (rulesForm_run _) input
    startState hclean).2 ⟨.program, #[]⟩ [] [] ⟨rfl, nofun⟩
  have hmore : (groupsState input).builder.Has root more := hmore.frames
  obtain rfl := hhas.unique hmore
  refine ⟨groups, hhas, fun t ht => ?_⟩
  obtain ⟨kind, hkind⟩ := Option.isSome_iff_exists.mp (bare_noLeaf.mp hbare t ht)
  rw [hkind, hkinds t ht kind hkind]

end Start

variable {A B : Input} {t : State}

/-- `Agrees` for a node at the start, and the same node behind what it takes over. -/
theorem Agrees.wrap_behind {groups : List Tree} {kind : NodeKind} {p q : Parse Unit}
    (h : Agrees A B t.position (fun _ _ => True) anyNode (A.kindsAt 0) 0
      ((root.inside kind).behind groups).children.size p q) (ht : Clean t)
    (hhas : t.builder.Has root groups) (hclean : Clean (after (wrap 0 kind p) A startState)) :
    Clean (after (wrap 0 kind q) B t) ∧
      (after (wrap 0 kind q) B t).position =
        (after (wrap 0 kind p) A startState).position + t.position ∧
      ∃ cs, (after (wrap 0 kind p) A startState).builder.Has root [.branch kind cs] ∧
        (after (wrap 0 kind q) B t).builder.Has root
          [.branch kind (groups ++ cs.map (Tree.later t.position))] := by
  obtain ⟨-, hadd⟩ := h { startState with builder := startState.builder.startAt 0 kind }
    { t with builder := t.builder.startAt 0 kind } rfl hclean
  obtain ⟨-, cs, hcs, -⟩ := hadd (root.inside kind) _ [] rfl rfl
    ⟨rfl, (hhas.startAt kind).behind, (Nat.zero_add _).symm, ht⟩ .nil
  exact ⟨hcs.clean, hcs.position, cs, hcs.has.finish, (Tree.Builder.has_behind.mp hcs.later).finish⟩

/-- The declaration of a function, from its keyword on. -/
def functionFrom (input : Input) (s : State) : State :=
  after (wrap 0 .functionDecl (functionRest (Rule.run (depthBound input)))) input s

/-- `functionFrom` parses the function behind the attributes as it is on its own. -/
theorem functionFrom_agrees {groups : List Tree} (hlater : Later A B t.position)
    (hfunction : A.kind? 0 = some .functionKw) (ht : Clean t) (hhas : t.builder.Has root groups)
    (hclean : Clean (functionFrom A startState)) :
    Clean (functionFrom B t) ∧
      (functionFrom B t).position = (functionFrom A startState).position + t.position ∧
        ∃ cs, (functionFrom A startState).builder.Has root [.branch .functionDecl cs] ∧
          (functionFrom B t).builder.Has root
            [.branch .functionDecl (groups ++ cs.map (Tree.later t.position))] := by
  have hle : depthBound A ≤ depthBound B := by
    have := hlater.size_le
    unfold depthBound
    omega
  refine Agrees.wrap_behind ?_ ht hhas hclean
  rw [kindsAt_eq_cons hfunction]
  exact (alike_functionRest (by decide) : Alike _ _ true _ _ _ _ _ _).agrees hlater
    (fun _ _ _ => trivial) (agrees_run hlater hle) nofun

/-- Where the symbols at the start are not taken for a closure (`ClosureSeen`) and the declaration
reaches the end, it is all there is. -/
theorem finalState_of_declaration {input : Input} (hseen : input.kind? 0 = some .functionKw ∨
      input.kind? 0 = some .attributeStart) (hnot : ¬ ClosureSeen (input.lookahead 0))
    {s : State} (hs : after (declaration (Rule.run (depthBound input))) input startState = s)
    (hclean : Clean s) (hend : input.kind? s.position = none) : finalState input = s := by
  have hplain : after (plainStatement (Rule.run (depthBound input))) input startState = s := by
    rw [← hs]
    exact (after_plainStatement hseen).trans (congrArg (after · input startState) (if_neg hnot))
  have hfirst : firstState input = s := by
    rw [firstState, statement, after_guarded_clean, hplain]
    · rw [hplain]
      exact hclean
    · rw [hplain]
      exact fun _ => hend
  obtain ⟨kind, hkind⟩ : ∃ kind, input.kind? 0 = some kind := hseen.elim (⟨_, ·⟩) (⟨_, ·⟩)
  obtain ⟨n, hn⟩ := finalState_eq hkind
  rw [hn, hfirst, after_statements_end hend]

/-- Attributes stand in front of the declaration of a function, which is parsed without a problem on
its own.  Then all together is parsed without a problem as one declaration, whose first children are
the attributes and whose other children are those it has on its own, if and only if the symbols at
the start are not taken for a closure. -/
theorem parse_attributedFunction {A B : Input} (hlater : Later A B (groupsState B).position)
    (hgroups : Clean (groupsState B)) (hfunction : A.kind? 0 = some .functionKw)
    (hproblems : (parse A).problems = #[])
    (hdecl : (parse A).tree.children.map Tree.kind? = [some .functionDecl]) :
    ∃ groups cs, (groupsState B).builder.Has root groups ∧
      (∀ t ∈ groups, t.kind? = some .attributeGroup) ∧
      (parse A).tree = .branch .program [.branch .functionDecl cs] ∧
      ((parse B).problems = #[] ∧ (parse B).tree = .branch .program [.branch .functionDecl
        (groups ++ cs.map (Tree.later (groupsState B).position))] ↔
          ¬ ClosureSeen (B.lookahead 0)) := by
  obtain ⟨-, hend, hfinal⟩ := finalState_declaration (.inl hfunction) hproblems hdecl
  have hnone : after (attributeGroups (Rule.run (depthBound A))) A startState = startState :=
    attributeGroups_none (by rw [show startState.position = 0 from rfl, hfunction]; decide)
  rw [after_declaration (by rw [hnone]; exact hfunction), hnone] at hfinal
  have hfinalA : finalState A = functionFrom A startState := hfinal
  have hcleanA : Clean (functionFrom A startState) :=
    hfinalA ▸ ⟨hproblems, (parse_complete A).2⟩
  obtain ⟨groups, hhas, hnodes⟩ := has_groups hgroups
  obtain ⟨hcleanB, hpositionB, cs, hA, hB⟩ :=
    functionFrom_agrees hlater hfunction hgroups hhas hcleanA
  have hseen : B.kind? (groupsState B).position = some .functionKw := by
    rw [← hfunction, ← hlater.kind? 0, Nat.zero_add]
  have hendB : B.kind? (functionFrom B (groupsState B)).position = none := by
    rw [hpositionB, hlater.kind?, ← hfinalA, hend]
  have hstart : B.kind? 0 = some .functionKw ∨ B.kind? 0 = some .attributeStart := by
    refine (em (B.kind? 0 = some .attributeStart)).symm.imp_left fun hno => ?_
    rwa [show groupsState B = startState from attributeGroups_none hno] at hseen
  refine ⟨groups, cs, hhas, hnodes, tree_of_has (hfinalA ▸ hA), fun ⟨hclean, htree⟩ => ?_,
    fun hnot => ?_⟩
  · exact (finalState_declaration hstart hclean (by rw [htree]; rfl)).1
  · have hfinalB : finalState B = functionFrom B (groupsState B) :=
      finalState_of_declaration hstart hnot (after_declaration hseen) hcleanB hendB
    exact ⟨(hfinalB ▸ hcleanB).1, tree_of_has (hfinalB ▸ hB)⟩

/-- Symbols of the kinds, without close tags. -/
def Input.ofKinds (kinds : List TokenKind) : Input := ⟨(kinds.map (⟨·, false⟩)).toArray, false⟩

/-- An attribute with an argument in front of a function. -/
theorem parse_attributedFunction_argument :
    let function : List TokenKind :=
      [.functionKw, .name, .parenBegin, .parenEnd, .blockBegin, .blockEnd]
    let A := Input.ofKinds function
    let B := Input.ofKinds
      ([.attributeStart, .name, .parenBegin, .int, .parenEnd, .arrayEnd] ++ function)
    (groupsState B).position = 6 ∧ ∃ groups cs, (∀ t ∈ groups, t.kind? = some .attributeGroup) ∧
      (parse A).tree = .branch .program [.branch .functionDecl cs] ∧ (parse B).problems = #[] ∧
        (parse B).tree =
          .branch .program [.branch .functionDecl (groups ++ cs.map (Tree.later 6))] := by
  intro function A B
  have hposition : (groupsState B).position = 6 := by decide +kernel
  have hlater : Later A B (groupsState B).position := by
    rw [hposition]
    refine ⟨fun i => ?_, rfl⟩
    rw [Input.rest, Input.rest, Nat.add_comm, ← List.drop_drop]
    rfl
  have hgroups : Clean (groupsState B) := ⟨by decide +kernel, by decide +kernel⟩
  obtain ⟨groups, cs, -, hnodes, hA, hB⟩ :=
    parse_attributedFunction hlater hgroups rfl (by decide +kernel) (by decide +kernel)
  rw [hposition] at hB
  exact ⟨hposition, groups, cs, hnodes, hA, hB.mpr (by decide +kernel)⟩

/-- A closure in an attribute makes the declaration behind it a problem. -/
theorem parse_attributedFunction_closure :
    let function : List TokenKind :=
      [.functionKw, .name, .parenBegin, .parenEnd, .blockBegin, .blockEnd]
    let A := Input.ofKinds function
    let B := Input.ofKinds ([.attributeStart, .name, .parenBegin, .fnKw, .parenBegin, .varName,
      .parenEnd, .doubleArrow, .varName, .parenEnd, .arrayEnd] ++ function)
    (parse A).problems = #[] ∧ (parse A).tree.children.map Tree.kind? = [some .functionDecl] ∧
      Clean (groupsState B) ∧ (groupsState B).position = 11 ∧ (parse B).problems ≠ #[] := by
  refine ⟨by decide +kernel, by decide +kernel, ⟨by decide +kernel, by decide +kernel⟩,
    by decide +kernel, by decide +kernel⟩

end CodeLayout.Grammar
