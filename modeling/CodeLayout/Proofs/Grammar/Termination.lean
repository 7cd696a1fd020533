import CodeLayout.Proofs.Grammar.Progress
import CodeLayout.Proofs.Grammar.Shape

/-!
# The grammar comes to an end

The bodies of the rules call other rules.  Most calls come behind a symbol that the body passes
first, so they start at a later position; `Ready` is what they may rely on there.  Few calls are
made at the position of the body itself, and they go down in rank: from a block without its brace to
its statements, from those to expressions, and so on (`Rule.rank`).  Hence eight calls for each
symbol left are enough (`sufficient_run`).

A parse of a row of symbols is then complete: it passes every symbol, and no bound ends it early
(`parse_complete`).
-/

namespace CodeLayout.Grammar

/-- From a position on, all rules go forward; a statement passes a symbol, and so do arguments at
their parenthesis. -/
structure Ready (input : Input) (call : Rules) (k : Nat) : Prop where
  rule : ∀ rule, Advances input k (call rule)
  statement : Passes input k anyLeaf (call .statement)
  arguments : Passes input k (· = .parenBegin) (call .arguments)

section Rules

variable {input : Input} {call : Rules} {k : Nat} {K : TokenKind → Prop}

namespace Ready

variable (hc : Ready input call k)
include hc

theorem next : Ready input call (k + 1) where
  rule rule := (hc.rule rule).mono (Nat.le_succ k)
  statement := hc.statement.mono (Nat.le_succ k) fun _ h => h
  arguments := hc.arguments.mono (Nat.le_succ k) fun _ h => h

theorem expr : Advances input k call.expr := hc.rule (.expression _)

theorem atLeast (power : Power) : Advances input k (call.atLeast power) := hc.rule (.expression _)

theorem above (power : Power) : Advances input k (call.above power) := hc.rule (.expression _)

theorem condition : Advances input k call.condition :=
  .seq .expect <| .seq hc.expr .expect

end Ready

/-! ## Parts that call no rule -/

theorem sees_checkModifier : Sees input anyLeaf checkModifier := by
  refine fun s => ⟨rfl, fun h => ?_⟩
  have hanswer : answer checkModifier input s =
      ((input.kind? s.position).map TokenKind.isModifier).getD false := rfl
  rw [hanswer] at h
  cases hseen : input.kind? s.position with
  | none =>
    rw [hseen] at h
    cases h
  | some kind => exact ⟨kind, rfl, trivial⟩

theorem advances_checkModifier : Advances input k checkModifier := .of_after_eq fun _ => rfl

theorem advances_modifiers : Advances input k modifiers :=
  .repeating (.when sees_checkModifier .bump .done)

theorem advances_atTypeStart : Advances input k atTypeStart := by
  refine .bind .peek fun kind => ?_
  split
  · exact .pure
  · exact .pure
  · exact .pure
  · exact .pure
  · exact .bind .peekAt fun _ => .pure
  · exact .pure

theorem advances_typeAtom : Advances input k typeAtom := .expectAny

theorem sees_intersectionAhead : Sees input anyLeaf intersectionAhead := by
  intro s
  unfold intersectionAhead
  rw [after_look rfl, answer_look rfl]
  split
  · next hyes =>
    refine ⟨?_, fun _ => ⟨.ampersand, by simpa using hyes, trivial⟩⟩
    rw [after_look rfl]
    split <;> rfl
  · exact ⟨rfl, fun h => absurd h Bool.false_ne_true⟩

theorem advances_intersectionAhead : Advances input k intersectionAhead :=
  .of_after_eq fun s => (sees_intersectionAhead s).1

theorem advances_inheritanceClause (keyword : TokenKind) (nodeKind : NodeKind) :
    Advances input k (inheritanceClause keyword nodeKind) :=
  .cond .check (.node (.seq .bump <| .commaSeparated .expect)) .pure

theorem advances_inheritance : Advances input k inheritance :=
  .seq (advances_inheritanceClause _ _) <| advances_inheritanceClause _ _

/-- `skipBraces` passes every symbol that it skips, so the bound is not reached before the end is.
-/
theorem forward_skipBraces (n depth : Nat) (s : State) (hs : s.position ≤ input.symbols.size)
    (hn : input.symbols.size < s.position + n) :
    Forward input s (after (skipBraces n depth) input s) := by
  induction n generalizing depth s with
  | zero => omega
  | succ n ih =>
    have hbump (depth : Nat) {kind : TokenKind} (hseen : input.kind? s.position = some kind) :
        Forward input s (after (do bump; skipBraces n depth) input s) := by
      obtain ⟨hforward, hlt⟩ := Passes.bump (K := anyLeaf) s kind (Nat.le_refl _) hseen trivial
      exact hforward.trans (ih depth _ hforward.le_size (by omega))
    rw [skipBraces, after_look rfl, answer_peek]
    split
    · exact .refl hs
    · next hseen => exact hbump _ hseen
    · next hseen =>
      split
      · exact .refl hs
      · exact hbump _ hseen
    · next hseen => exact hbump _ hseen

theorem advances_traitUseRest : Advances input k traitUseRest := by
  refine .seq .bump <| .seq (.commaSeparated .expect) ?_
  refine .cond .check (.node (.seq .bump ?_)) .expectEnd
  have hskip : Advances input k (skipBraces (input.symbols.size + 1) 1) :=
    fun s _ hs => forward_skipBraces _ _ s hs (by omega)
  exact fun s hk hs => Advances.bind hskip (fun _ => .expect) s hk hs

theorem advances_closureUse : Advances input k closureUse :=
  .node (.seq .bump <| .seq .expect <| .seq (.itemsUntil (.seq .skip .expect)) .expect)

theorem advances_reservedPrimary (kind : TokenKind) : Advances input k (reservedPrimary kind) := by
  refine .cond .peekAt .bump (.seq .unexpected ?_)
  split
  · exact .pure
  · exact .pure
  · exact .pure
  · exact .pure
  · exact .pure
  · exact .bump

theorem after_callAhead (input : Input) (s : State) : after callAhead input s = s := by
  unfold callAhead
  rw [after_look rfl]
  split <;> rfl

theorem advances_atExpressionEnd : Advances input k atExpressionEnd :=
  .cond .atEnd .pure (.cond .checkAny .pure .closedHere)

theorem advances_useType : Advances input k useType := .cond .checkAny .bump .pure

theorem passes_jumpStmt : Passes input k K jumpStmt := .node (.seq .bump <| .seq .skip .expectEnd)

theorem passes_globalStmt : Passes input k K globalStmt :=
  .node (.seq .bump <| .seq (.commaSeparated .expect) .expectEnd)

/-! ## Declarations, members and closures -/

section

variable (hc : Ready input call k)
include hc

theorem advances_attributeItem : Advances input k (attributeItem call) :=
  .node (.seq .expect <| .cond .check (hc.rule .arguments) .pure)

theorem advances_type : Advances input k (type call) := by
  refine .cond .check (.node (.seq .bump advances_typeAtom)) ?_
  refine .marker fun _ => .seq (hc.rule .intersection) ?_
  refine .cond .check (.wrap ?_) .pure
  exact .whileEating (hc.next.rule .intersection)

theorem advances_colonType (nodeKind : NodeKind) : Advances input k (colonType call nodeKind) :=
  .cond .check (.node (.seq .bump <| advances_type hc)) .pure

theorem advances_returnType : Advances input k (returnType call) :=
  advances_colonType hc _

theorem advances_constElement : Advances input k (constElement call) :=
  .node (.seq .expectMemberName <| .seq .expect hc.expr)

theorem advances_propertyElement :
    Advances input k (propertyElement call) := .node (.seq .expect <| .cond .eat hc.expr .pure)

theorem advances_propertyRest (since : Nat) : Advances input k (propertyRest call since) :=
  .wrap (.optional .check (advances_type hc) <|
    .seq (.commaSeparated (advances_propertyElement hc)) .expectEnd)

theorem advances_arrayElement : Advances input k (arrayElement call) :=
  .node (.seq hc.expr <| .cond .eat hc.expr .pure)

theorem advances_arrayElements (close : TokenKind) :
    Advances input k (arrayElements call close) := by
  refine .repeating (.bind .check fun _ => .cond .atEnd .done ?_)
  exact .ifEat .pure (.seq (advances_arrayElement hc) .eat)

theorem advances_armConditions : Advances input k (armConditions call) := by
  refine .seq hc.expr <| .repeating (.ifEat ?_ .done)
  exact .cond .check .pure (.seq hc.next.expr .pure)

theorem advances_matchArm : Advances input k (matchArm call) :=
  .node (.optional .eat (advances_armConditions hc) <| .seq .expect hc.expr)

theorem advances_memberName : Advances input k (memberName call) := by
  refine .bind .peek fun _ => ?_
  split
  · exact .bump
  · exact .node (.seq .bump <| .seq hc.expr .expect)
  · exact hc.rule .primary
  · exact .expectMemberName

theorem advances_body : Advances input k (body call) :=
  .cond .check (.seq .report .bump) (hc.rule .statement)

theorem advances_forPart (terminator : TokenKind) : Advances input k (forPart call terminator) :=
  .cond .check (.seq (.commaSeparated hc.expr) .expect) .expect

end

section

variable (hc : Ready input call (k + 1))
include hc

/-- `attributeGroups` takes a group that starts with its sign. -/
theorem steps_attributeGroups :
    Steps input k (do
      if ← check .attributeStart then
        node .attributeGroup do
          bump
          itemsUntil .arrayEnd (attributeItem call)
          expect .arrayEnd
        return true
      return false) := by
  refine .when sees_check (.node (.seq .bump ?_)) .done
  exact .seq (.itemsUntil (advances_attributeItem hc)) .expect

theorem advances_attributeGroups :
    Advances input k (attributeGroups call) := .repeating (steps_attributeGroups hc)

theorem passes_attributeGroups : Passes input k (· = .attributeStart) (attributeGroups call) := by
  rintro s kind hk hseen rfl
  have hs := (lt_size_of_kind? hseen).le
  refine ⟨advances_attributeGroups hc s hk hs, (steps_attributeGroups hc).repeating_passes hk hs ?_⟩
  show answer (if answer (check .attributeStart) input s = true then _ else _) input s = true
  rw [if_pos (by simp [hseen])]
  rfl

theorem advances_intersection : Advances input k (intersection call) := by
  refine .ifEat (.seq (hc.rule .intersection) .expect) (.marker fun _ => ?_)
  refine .seq advances_typeAtom <| .cond advances_intersectionAhead (.wrap (.repeating ?_)) .pure
  exact .when sees_intersectionAhead (p := do bump; typeAtom)
    (.seq .bump advances_typeAtom) .done

end

section

variable (hc : Ready input call k)
include hc

theorem advances_param : Advances input k (param call) := by
  refine .node (.seq (advances_attributeGroups hc.next) ?_)
  refine .seq advances_modifiers <| .bind advances_atTypeStart fun _ => ?_
  have hrest : Advances input k (do
      skip .ampersand; skip .ellipsis; expect .varName
      if ← eat .assign then call.expr) :=
    .seq .skip <| .seq .skip <| .seq .expect <| .cond .eat hc.expr .pure
  exact .ite (.seq (advances_type hc) hrest) hrest

theorem advances_paramList : Advances input k (paramList call) :=
  .node (.seq .expect <| .seq (.itemsUntil (advances_param hc)) .expect)

omit hc in
theorem passes_functionRest (hc : Ready input call (k + 1)) :
    Passes input k K (functionRest call) :=
  .seq .bump <| .seq .skip <| .seq .expectMemberName <| .seq (advances_paramList hc) <|
    .seq (advances_returnType hc) <| .cond .check (hc.rule .block) .expectEnd

theorem advances_modifiedMember (since : Nat) : Advances input k (modifiedMember call since) := by
  refine .bind advances_checkModifier fun _ => .seq advances_modifiers ?_
  intro s hk hs
  rw [after_look rfl, answer_peek]
  split
  · refine Advances.wrap (.seq .bump <| .bind advances_atTypeStart fun _ => ?_) s hk hs
    exact .optional .peekAt (advances_type hc) <| .seq (.commaSeparated (advances_constElement hc))
      .expectEnd
  · next hseen =>
    exact (Passes.wrap (passes_functionRest (K := anyLeaf) hc.next) s _ hk hseen trivial).1
  · exact advances_propertyRest hc since s hk hs
  · exact Advances.bind advances_atTypeStart
      (fun _ => .ite (advances_propertyRest hc since) .unexpected) s hk hs

theorem advances_classMember : Advances input k (classMember call) := by
  refine .marker fun since => .seq (advances_attributeGroups hc.next) ?_
  refine .bind .peek fun kind => ?_
  split
  · exact .wrap advances_traitUseRest
  · refine .wrap (.seq .bump <| .seq .expectMemberName ?_)
    exact .cond .eat (.seq hc.expr .expectEnd) .expectEnd
  · exact advances_modifiedMember hc since

theorem advances_classBody : Advances input k (classBody call) := by
  refine .node (.seq .expect <| .seq (.repeating ?_) .expect)
  refine Steps.unless (c := do return (← check .blockEnd) || (← atEnd)) (fun _ => rfl) ?_
    (passes_guarded (advances_classMember hc))
  intro s hend
  show (_ || answer atEnd input s) = true
  rw [answer_atEnd, hend]
  exact Bool.or_true _

/-- A closure with an arrow, behind its keyword. -/
theorem advances_arrowRest : Advances input k (do
      skip .ampersand
      paramList call
      returnType call
      expect .doubleArrow
      call.atLeast .ternary) :=
  .seq .skip <| .seq (advances_paramList hc) <| .seq (advances_returnType hc) <| .seq .expect <|
    hc.atLeast _

/-- A closure with a block, behind its keyword. -/
theorem advances_closureRest : Advances input k (do
      skip .ampersand
      paramList call
      if ← check .useKw then closureUse
      returnType call
      call .block) :=
  .seq .skip <| .seq (advances_paramList hc) <| .optional .check advances_closureUse <|
    .seq (advances_returnType hc) <| hc.rule .block

theorem advances_closure (since : Nat) : Advances input k (closure call since) :=
  .seq .skip <| .cond .check (.wrap (.seq .bump <| advances_arrowRest hc))
    (.wrap (.seq .expect <| advances_closureRest hc))

end

section

variable (hc : Ready input call (k + 1))
include hc

theorem passes_typeDeclRest (nodeKind : NodeKind) :
    Passes input k K (typeDeclRest call nodeKind) := by
  refine .seq .bump <| .seq .expect ?_
  have hrest : Advances input (k + 1) (do inheritance; classBody call) :=
    .seq advances_inheritance <| advances_classBody hc
  exact .ite (.seq (advances_colonType hc _) hrest) hrest

theorem advances_declaration : Advances input k (declaration call) := by
  refine .marker fun since => .seq (advances_attributeGroups hc) ?_
  refine .seq advances_modifiers ?_
  intro s hk hs
  rw [after_look rfl, answer_peek]
  split
  · next hkind =>
    obtain ⟨kind, hseen, -⟩ := Option.bind_eq_some_iff.mp hkind
    exact (Passes.wrap (passes_functionRest (K := anyLeaf) hc) s kind hk hseen trivial).1
  · next hkind =>
    obtain ⟨kind, hseen, -⟩ := Option.bind_eq_some_iff.mp hkind
    exact (Passes.wrap (passes_typeDeclRest (K := anyLeaf) hc _) s kind hk hseen trivial).1
  · exact Advances.unexpected s hk hs

/-! ## Expressions -/

omit hc in
theorem advances_argument (hexpr : Advances input k call.expr) :
    Advances input k (argument call) := by
  refine .bind .peek fun _ => .cond .peekAt (.node ?_) hexpr
  exact .seq .bump <| .seq .bump hexpr

omit hc in
/-- Arguments behind their opening parenthesis. -/
theorem advances_argumentsRest (hexpr : Advances input k call.expr) :
    Advances input k (do
      if (← check .ellipsis) && (← peekAt 1) == some .parenEnd then bump
      itemsUntil .parenEnd (argument call)
      expect .parenEnd) :=
  .bind .check fun _ => .optional .peekAt .bump <|
    .seq (.itemsUntil (advances_argument hexpr)) .expect

omit hc in
theorem advances_arguments (hexpr : Advances input k call.expr) :
    Advances input k (arguments call) := .node (.seq .expect <| advances_argumentsRest hexpr)

theorem passes_arguments : Passes input k (· = .parenBegin) (arguments call) :=
  .node (.seq passes_expect <| advances_argumentsRest hc.expr)

theorem passes_parenthesised : Passes input k K (parenthesised call) :=
  .node (.seq .bump <| .seq hc.expr .expect)

theorem passes_newExpr : Passes input k K (newExpr call) := by
  refine .node (.seq .bump <| .cond .check (.node ?_) ?_)
  · have hrest : Advances input (k + 1) (do inheritance; classBody call) :=
      .seq advances_inheritance <| advances_classBody hc
    exact .seq .bump <| .cond .check (.seq (hc.rule .arguments) hrest) hrest
  · have hrest : Advances input (k + 1) (do if ← check .parenBegin then call .arguments) :=
      .cond .check (hc.rule .arguments) .pure
    have hparens : Advances input (k + 1) (parenthesised call) :=
      .node (.seq .bump <| .seq hc.expr .expect)
    refine .bind .peek fun _ => ?_
    split
    · exact .seq .bump hrest
    · exact .seq .bump hrest
    · exact .seq .bump hrest
    · exact .seq hparens hrest
    · exact .seq .expect hrest

theorem passes_matchExpr : Passes input k K (matchExpr call) :=
  .node (.seq .bump <| .seq hc.condition <| .seq .expect <|
    .seq (.itemsUntil (advances_matchArm hc)) .expect)

omit hc in
/-- The keywords that a closure starts with. -/
def closureStart : TokenKind → Prop
  | .staticKw | .functionKw | .fnKw => True
  | _ => False

/-- `closure` passes its keyword. -/
theorem passes_closure (since : Nat) : Passes input k closureStart (closure call since) := by
  intro s kind hk hseen hkind
  have hrest : Advances input (k + 1) (do
      if ← check .fnKw then
        wrap since .arrowFnExpr do
          bump
          skip .ampersand
          paramList call
          returnType call
          expect .doubleArrow
          call.atLeast .ternary
      else
        wrap since .closureExpr do
          expect .functionKw
          skip .ampersand
          paramList call
          if ← check .useKw then closureUse
          returnType call
          call .block) :=
    .cond .check (.wrap (.seq .bump <| advances_arrowRest hc))
      (.wrap (.seq .expect <| advances_closureRest hc))
  unfold closureStart at hkind
  split at hkind
  · exact Passes.bind passes_skip (fun _ => hrest) s _ hk hseen rfl
  · rw [closure, after_look (after_skip_of_ne hseen (by decide)), after_look rfl, answer_check,
      hseen]
    exact Passes.wrap (.seq passes_expect <| advances_closureRest hc) s _ hk hseen rfl
  · rw [closure, after_look (after_skip_of_ne hseen (by decide)), after_look rfl, answer_check,
      hseen]
    exact Passes.wrap (.seq (.bump (K := anyLeaf)) <| advances_arrowRest hc) s _ hk hseen
      trivial
  · exact hkind.elim

/-- A closure behind its attributes passes a sign of theirs, or its keyword (`closureStart`). -/
theorem forward_attributedClosure {s : State} {kind : TokenKind}
    (hk : k ≤ s.position) (hseen : input.kind? s.position = some kind)
    (hkind : kind = .attributeStart ∨ closureStart kind) :
    Forward input s (after (do
      let since ← marker
      attributeGroups call
      closure call since) input s) := by
  have hgroups := advances_attributeGroups hc s hk (lt_size_of_kind? hseen).le
  rw [after_look rfl, after_bind]
  refine hgroups.trans ?_
  by_cases hlt : s.position < (after (attributeGroups call) input s).position
  · exact advances_closure hc _ _ (Nat.succ_le_of_lt (hk.trans_lt hlt)) hgroups.le_size
  · have hsame := Nat.le_antisymm (Nat.not_lt.mp hlt) hgroups.position_le
    rcases hkind with rfl | hkind
    · exact absurd (passes_attributeGroups hc s _ hk hseen rfl).2 hlt
    · exact (passes_closure hc _ _ kind (hk.trans hgroups.position_le) (hsame ▸ hseen) hkind).1

theorem passes_dynamicName : Passes input k K (dynamicName call) :=
  .node (.seq .bump <| .cond .eat (.seq hc.expr .expect) (hc.rule .primary))

theorem advances_primary : Advances input k (primary call) := by
  intro s hk hs
  rw [primary, after_look rfl, answer_peek]
  cases hseen : input.kind? s.position with
  | none => exact Advances.unexpected s hk hs
  | some kind =>
    have hpasses {p : Parse Unit} (hp : Passes input k anyLeaf p) :
        Forward input s (after p input s) := (hp s kind hk hseen trivial).1
    have harray (close : TokenKind) : Advances input (k + 1) (do
        arrayElements call close; expect close) := .seq (advances_arrayElements hc close) .expect
    dsimp only
    rw [after_look rfl]
    split
    · exact Advances.bump s hk hs
    · exact Advances.bump s hk hs
    · exact Advances.bump s hk hs
    · exact Advances.bump s hk hs
    · exact Advances.bump s hk hs
    · exact hpasses (passes_dynamicName hc)
    · exact hpasses (passes_parenthesised hc)
    · exact hpasses (.node (.seq .bump <| harray _))
    · exact hpasses (.node (.seq .bump <| .seq .expect <| harray _))
    · exact hpasses (passes_newExpr hc)
    · exact hpasses (passes_matchExpr hc)
    · exact forward_attributedClosure hc hk hseen (.inr trivial)
    · exact forward_attributedClosure hc hk hseen (.inr trivial)
    · exact forward_attributedClosure hc hk hseen (.inl rfl)
    · split
      · exact hpasses (.node (.seq .bump <| .seq .bump <| harray _))
      · exact advances_reservedPrimary _ s hk hs
    · split
      · rw [after_look rfl]
        exact (passes_closure hc _ s _ hk hseen trivial).1
      · exact advances_reservedPrimary _ s hk hs
    · exact advances_reservedPrimary _ s hk hs

theorem passes_memberAccess (since : Nat)
    (plain called : NodeKind) : Passes input k K (memberAccess call since plain called) := by
  refine .look (after_callAhead input) fun _ => .ite (.wrap ?_) (.wrap ?_)
  · exact .seq .bump <| .seq (advances_memberName hc) <| hc.rule .arguments
  · exact .seq .bump <| advances_memberName hc

theorem steps_postfixStep (harguments : Passes input k (· = .parenBegin) (call .arguments))
    (since : Nat) :
    Steps input k (postfixStep call since) := by
  intro s hk hs
  rw [postfixStep, after_look rfl, answer_look rfl, answer_peek]
  have hpasses {p : Parse Unit} {kind : TokenKind} (hseen : input.kind? s.position = some kind)
      (hp : Passes input k (· = kind) p) :
      Forward input s (after (p >>= fun _ => pure true) input s) ∧
        (answer (p >>= fun _ => pure true) input s = true →
          s.position < (after (p >>= fun _ => pure true) input s).position) := by
    obtain ⟨hforward, hlt⟩ := hp s kind hk hseen rfl
    exact ⟨hforward, fun _ => hlt⟩
  split
  · next hseen => exact hpasses hseen (.wrap harguments)
  · next hseen => exact hpasses hseen (passes_memberAccess hc since _ _)
  · next hseen => exact hpasses hseen (passes_memberAccess hc since _ _)
  · next hseen => exact hpasses hseen (passes_memberAccess hc since _ _)
  · next hseen =>
    have hindex : Advances input (k + 1) (do
        if !(← check .arrayEnd) then call.expr
        expect .arrayEnd) := .cond .check (.seq hc.expr .expect) .expect
    exact hpasses hseen (.wrap (.seq .bump hindex))
  · next hseen => exact hpasses hseen (.wrap .bump)
  · next hseen => exact hpasses hseen (.wrap .bump)
  · exact Steps.done s hk hs

theorem advances_operand (hprimary : Advances input k (call .primary))
    (harguments : Passes input k (· = .parenBegin) (call .arguments)) :
    Advances input k (operand call) :=
  .marker fun since => .seq hprimary <| .repeating (steps_postfixStep hc harguments since)

theorem passes_leading (nodeKind : NodeKind) (power : Power) :
    Passes input k K (leading call nodeKind power) := .node (.seq .bump <| hc.atLeast power)

theorem advances_unary (hoperand : Advances input k (operand call)) :
    Advances input k (unary call) := by
  intro s hk hs
  rw [unary, after_look rfl, answer_peek]
  have hpasses {p : Parse Unit} {kind : TokenKind} (hseen : input.kind? s.position = some kind)
      (hp : Passes input k anyLeaf p) : Forward input s (after p input s) :=
    (hp s kind hk hseen trivial).1
  split
  case h_11 hseen => exact hpasses hseen (.node (.seq .bump <| hc.rule .unary))
  case h_15 hseen =>
    refine hpasses hseen (.node (.seq .bump <| .bind advances_atExpressionEnd fun _ => ?_))
    exact .ite (.seq (hc.atLeast _) <| .cond .eat (hc.atLeast _) .pure) .pure
  case h_16 =>
    refine Advances.marker (fun since => .seq hoperand ?_) s hk hs
    exact .when sees_checkAny (.wrap (.seq .bump <| hc.atLeast _)) .pure
  all_goals next hseen => exact hpasses hseen (passes_leading hc _ _)

theorem passes_infixRest (power : Power) : Passes input k K (infixRest call power) := by
  refine .seq .bump ?_
  split
  · refine .cond .eat ?_ (hc.above _)
    exact .seq (hc.atLeast _) <| .seq .expect <| hc.above _
  · exact hc.atLeast _
  · exact hc.atLeast _
  · exact hc.above _

theorem steps_infixStep (since least : Nat) : Steps input k (infixStep call since least) := by
  intro s hk hs
  rw [infixStep, after_look rfl, answer_look rfl, answer_peek]
  split
  · next power hpower =>
    obtain ⟨kind, hseen, -⟩ := Option.bind_eq_some_iff.mp hpower
    split
    · exact Steps.done s hk hs
    · obtain ⟨hforward, hlt⟩ := Passes.wrap (passes_infixRest (K := anyLeaf) hc power) s kind hk
        hseen trivial
      exact ⟨hforward, fun _ => hlt⟩
  · exact Steps.done s hk hs

theorem advances_expression (hunary : Advances input k (call .unary)) (least : Nat) :
    Advances input k (expression call least) :=
  .marker fun since => .seq hunary <| .repeating (steps_infixStep hc since least)

/-! ## Statements -/

omit hc in
theorem advances_statementsUntil (hstatement : Passes input k anyLeaf (call .statement))
    (terminators : List TokenKind) : Advances input k (statementsUntil call terminators) := by
  refine .repeating (Steps.unless (c := do return (← atEnd) || (← checkAny terminators))
    (fun _ => rfl) (fun s hend => ?_) hstatement)
  show (answer atEnd input s || _) = true
  rw [answer_atEnd, hend]
  rfl

omit hc in
theorem advances_block (hstatement : Passes input k anyLeaf (call .statement)) :
    Advances input k (block call) :=
  .node (.seq .expect <| .seq (advances_statementsUntil hstatement _) .expect)

theorem passes_block : Passes input k (· = .blockBegin) (block call) :=
  .node (.seq passes_expect <| .seq (advances_statementsUntil hc.statement _) .expect)

omit hc in
theorem advances_exprStmt (hexpr : Advances input k call.expr) : Advances input k (exprStmt call) :=
  .node (.seq hexpr .expectEnd)

theorem passes_conditional : Passes input k K (conditional call) :=
  .seq .bump <| .seq hc.condition <| advances_body hc

theorem passes_ifStmt : Passes input k K (ifStmt call) := by
  refine .node (.seq (passes_conditional hc) <| .seq (.repeating ?_) ?_)
  · exact .when sees_check (.node (passes_conditional hc.next)) .done
  · exact .cond .check (.node (.seq .bump <| advances_body hc)) .pure

theorem passes_doStmt : Passes input k K (doStmt call) :=
  .node (.seq .bump <| .seq (hc.rule .statement) <| .seq .expect <| .seq hc.condition .expectEnd)

theorem passes_forStmt : Passes input k K (forStmt call) :=
  .node (.seq .bump <| .seq .expect <| .seq (advances_forPart hc _) <| .seq (advances_forPart hc _)
    <| .seq (advances_forPart hc _) <| advances_body hc)

omit hc in
theorem advances_foreachTarget (hc : Ready input call k) :
    Advances input k (foreachTarget call) := by
  have hoperand := advances_operand hc.next (hc.rule .primary) hc.arguments
  exact .cond .check (.node (.seq .bump hoperand)) hoperand

theorem passes_foreachStmt : Passes input k K (foreachStmt call) := by
  refine .node (.seq .bump <| .seq .expect <| .seq hc.expr ?_)
  refine .seq .expect <| .seq (advances_foreachTarget hc) ?_
  exact .optional .eat (advances_foreachTarget hc) <| .seq .expect <| advances_body hc

/-- `caseClause` passes its keyword, whichever it is. -/
theorem passes_caseClause : Passes input k K (caseClause call) := by
  have hrest : Advances input (k + 1) (do
      expectAny [.colon, .semiColon]; statementsUntil call [.caseKw, .defaultKw, .blockEnd]) :=
    .seq .expectAny <| advances_statementsUntil hc.statement _
  exact .node (.ifEat (.seq hc.expr hrest) (.bind .bump fun _ => hrest))

theorem passes_switchStmt : Passes input k K (switchStmt call) := by
  refine .node (.seq .bump <| .seq hc.condition <| .node ?_)
  refine .seq .expect <| .seq (.repeating ?_) .expect
  exact .when sees_checkAny (passes_caseClause hc.next) .done

theorem passes_catchClause : Passes input k K (catchClause call) :=
  .node (.seq .bump <| .seq .expect <| .seq .expect <| .seq (.whileEating .expect) <| .seq .skip <|
    .seq .expect <| hc.rule .block)

theorem passes_tryStmt : Passes input k K (tryStmt call) := by
  refine .node (.seq .bump <| .seq (hc.rule .block) ?_)
  refine .seq (.repeating ?_) ?_
  · exact .when sees_check (passes_catchClause hc.next) .done
  · exact .cond .check (.node (.seq .bump <| hc.rule .block)) .pure

theorem passes_returnStmt : Passes input k K (returnStmt call) :=
  .node (.seq .bump <| .cond advances_atExpressionEnd (.seq hc.expr .expectEnd) .expectEnd)

theorem passes_exprListStmt (nodeKind : NodeKind) : Passes input k K (exprListStmt call nodeKind) :=
  .node (.seq .bump <| .seq (.commaSeparated hc.expr) .expectEnd)

theorem passes_echoTag : Passes input k K (echoTag call) :=
  .node (.seq .bump <| .seq (.commaSeparated hc.expr) .skip)

theorem passes_namespaceDecl : Passes input k K (namespaceDecl call) :=
  .node (.seq .bump <| .seq .skip <| .cond .check (hc.rule .block) .expectEnd)

theorem advances_useClause : Advances input k (useClause call) := by
  have hrest {k : Nat} : Advances input k (do if ← eat .asKw then expectMemberName) :=
    .cond .eat .expectMemberName .pure
  refine .node (.seq advances_useType <| .seq .expect ?_)
  refine .ifEat (.seq (.node ?_) hrest) hrest
  exact .seq .expect <| .seq (.itemsUntil (hc.rule .useClause)) .expect

theorem passes_useStmt : Passes input k K (useStmt call) :=
  .node (.seq .bump <| .seq advances_useType <| .seq (.commaSeparated (hc.rule .useClause))
    .expectEnd)

theorem passes_constStmt : Passes input k K (constStmt call) :=
  .node (.seq .bump <| .seq (.commaSeparated (advances_constElement hc)) .expectEnd)

theorem passes_declareStmt : Passes input k K (declareStmt call) := by
  have hdirective : Advances input (k + 1) (directive call) := .seq .expect <| .seq .expect hc.expr
  refine .node (.seq .bump <| .seq .expect ?_)
  exact .seq (.commaSeparated hdirective) <| .seq .expect <| .cond .check (hc.rule .statement)
    .expectEnd

/-- `plainStatement` hands the next symbol on to an expression or a block that it starts with; else
it passes it first. -/
theorem advances_plainStatement (hexpr : Advances input k call.expr)
    (hblock : Passes input k (· = .blockBegin) (call .block)) :
    Advances input k (plainStatement call) := by
  intro s hk hs
  have hhead := head?_ahead (lookaheadLimit + 2) input s
  rw [plainStatement, after_look rfl]
  generalize hkinds : answer (ahead (lookaheadLimit + 3)) input s = kinds
  rw [show lookaheadLimit + 2 + 1 = lookaheadLimit + 3 from rfl, hkinds] at hhead
  have hexprStmt := advances_exprStmt hexpr s hk hs
  have hdeclaration := advances_declaration hc s hk hs
  have hpasses {p : Parse Unit} {kind : TokenKind} (hseen : kinds.head? = some kind)
      (hp : Passes input k anyLeaf p) : Forward input s (after p input s) :=
    (hp s kind hk (hhead.symm.trans hseen) trivial).1
  dsimp only
  split
  · split
    · split
      · exact hexprStmt
      · exact hdeclaration
    · split
      · exact hexprStmt
      · exact hdeclaration
    · exact hdeclaration
  · split
    · exact hexprStmt
    · exact hdeclaration
  · exact hdeclaration
  · exact hdeclaration
  · exact hdeclaration
  · exact hdeclaration
  · exact hdeclaration
  · exact hdeclaration
  · split
    · exact hdeclaration
    · exact hexprStmt
  · next hseen => exact hpasses hseen (passes_ifStmt hc)
  · next hseen => exact hpasses hseen (.node (passes_conditional hc))
  · next hseen => exact hpasses hseen (passes_doStmt hc)
  · next hseen => exact hpasses hseen (passes_forStmt hc)
  · next hseen => exact hpasses hseen (passes_foreachStmt hc)
  · next hseen => exact hpasses hseen (passes_switchStmt hc)
  · next hseen => exact hpasses hseen (passes_tryStmt hc)
  · next hseen => exact hpasses hseen (passes_returnStmt hc)
  · next hseen => exact hpasses hseen passes_jumpStmt
  · next hseen => exact hpasses hseen passes_jumpStmt
  · next hseen => exact hpasses hseen (passes_exprListStmt hc _)
  · next hseen => exact hpasses hseen (passes_echoTag hc)
  · next hseen => exact hpasses hseen passes_globalStmt
  · next hseen =>
    split
    · exact hpasses hseen (passes_exprListStmt hc _)
    · exact hexprStmt
  · next hseen =>
    split
    · exact hpasses hseen (passes_namespaceDecl hc)
    · exact hexprStmt
  · next hseen => exact hpasses hseen (passes_useStmt hc)
  · next hseen => exact hpasses hseen (passes_constStmt hc)
  · next hseen => exact hpasses hseen (passes_declareStmt hc)
  · next hseen => exact (hblock s _ hk (hhead.symm.trans hseen) rfl).1
  · exact Advances.node .bump s hk hs
  · exact Advances.bind .report (fun _ => .bump) s hk hs
  · exact hexprStmt

end

end Rules

/-! ## The recursion -/

/-- How much deeper than a rule behind the next symbol a rule may call others at the same position:
a block without its brace calls statements, those call expressions, and so on down to primary
expressions. -/
def Rule.rank : Rule → Nat
  | block => 5
  | statement | arguments => 4
  | expression _ => 3
  | unary => 2
  | primary => 1
  | useClause | intersection => 0

theorem Rule.rank_lt (rule : Rule) : rule.rank < 8 := by
  cases rule <;> exact Nat.lt_of_sub_eq_succ rfl

/-- A depth of recursion suffices for the rules from those positions on where it is larger than
eight times the number of symbols left, and the rank of the rule. -/
structure Sufficient (input : Input) (depth : Nat) : Prop where
  rule : ∀ rule k, 8 * (input.symbols.size - k) + rule.rank < depth →
    Advances input k (Rule.run depth rule)
  statement : ∀ k, 8 * (input.symbols.size - k) + Rule.statement.rank < depth →
    Passes input k anyLeaf (Rule.run depth .statement)
  arguments : ∀ k, 8 * (input.symbols.size - k) < depth →
    Passes input k (· = .parenBegin) (Rule.run depth .arguments)
  block : ∀ k, 8 * (input.symbols.size - k) < depth →
    Passes input k (· = .blockBegin) (Rule.run depth .block)

variable {input : Input}

variable {depth k : Nat}

/-- `Ready` behind the next symbol: every rule may be called, whatever its rank. -/
theorem Sufficient.ready (h : Sufficient input depth)
    (hdepth : 8 * (input.symbols.size - k) ≤ depth) : Ready input (Rule.run depth) (k + 1) where
  rule rule s hk hs := by
    have hrank := rule.rank_lt
    exact h.rule rule (k + 1) (by omega) s hk hs
  statement s kind hk hseen hK := by
    have hlt := lt_size_of_kind? hseen
    have hrank := Rule.statement.rank_lt
    exact h.statement (k + 1) (by omega) s kind hk hseen hK
  arguments s kind hk hseen hK := by
    have hlt := lt_size_of_kind? hseen
    exact h.arguments (k + 1) (by omega) s kind hk hseen hK

/-- `Rule.body` goes forward where the depth suffices for it. -/
theorem Sufficient.advances_body_rule (h : Sufficient input depth) (rule : Rule)
    (hdepth : 8 * (input.symbols.size - k) + rule.rank ≤ depth) :
    Advances input k (rule.body (Rule.run depth)) := by
  have hc := h.ready (k := k) (by omega)
  -- each rule calls at its own position only rules of a lower rank; the others are `hc`
  cases rule with
  | statement =>
    rw [Rule.rank] at hdepth
    exact .guarded (advances_plainStatement hc
      (h.rule (.expression _) k (by rw [Rule.rank]; omega)) (h.block k (by omega)))
  | block =>
    rw [Rule.rank] at hdepth
    exact advances_block (h.statement k (by rw [Rule.rank]; omega))
  | expression power =>
    rw [Rule.rank] at hdepth
    exact advances_expression hc (h.rule .unary k (by rw [Rule.rank]; omega)) power
  | unary =>
    rw [Rule.rank] at hdepth
    exact advances_unary hc (advances_operand hc (h.rule .primary k (by rw [Rule.rank]; omega))
      (h.arguments k (by omega)))
  | primary => exact advances_primary hc
  | arguments =>
    rw [Rule.rank] at hdepth
    exact advances_arguments (h.rule (.expression _) k (by rw [Rule.rank]; omega))
  | useClause => exact advances_useClause hc
  | intersection => exact advances_intersection hc

theorem Sufficient.passes_statement (h : Sufficient input depth)
    (hdepth : 8 * (input.symbols.size - k) + Rule.statement.rank ≤ depth) :
    Passes input k anyLeaf (Grammar.statement (Rule.run depth)) := by
  rw [Rule.rank] at hdepth
  exact passes_guarded (advances_plainStatement (h.ready (by omega))
    (h.rule (.expression _) k (by rw [Rule.rank]; omega)) (h.block k (by omega)))

theorem sufficient_run (depth : Nat) : Sufficient input depth := by
  induction depth with
  | zero =>
    -- a depth of zero is larger than nothing, so it need not suffice anywhere
    exact ⟨nofun, nofun, nofun, nofun⟩
  | succ depth ih =>
    refine ⟨?_, ?_, ?_, ?_⟩
    · intro rule k hdepth
      exact ih.advances_body_rule rule (Nat.le_of_lt_succ hdepth)
    · intro k hdepth
      exact ih.passes_statement (Nat.le_of_lt_succ hdepth)
    · intro k hdepth
      exact passes_arguments (ih.ready (Nat.le_of_lt_succ hdepth))
    · intro k hdepth
      exact passes_block (ih.ready (Nat.le_of_lt_succ hdepth))

/-! ## Whole parses -/

/-- `statements` stops at the end, and no bound is reached on the way. -/
theorem statements_complete (input : Input) {s : State} (hs : s.position ≤ input.symbols.size) :
    (after (statements (depthBound input)) input s).position = input.symbols.size ∧
      (after (statements (depthBound input)) input s).cutShort = s.cutShort := by
  have hstatement : Passes input 0 anyLeaf (statement (Rule.run (depthBound input))) := by
    refine (sufficient_run _).passes_statement ?_
    rw [Rule.rank, depthBound]
    omega
  have hsteps := Steps.unless (c := atEnd) (fun _ => rfl) (fun s hend => by simp [hend]) hstatement
  obtain ⟨s', hforward, hanswer, hafter⟩ := hsteps.repeating_stops (Nat.zero_le _) hs
  rw [answer_look rfl, answer_atEnd] at hanswer
  rw [after_look rfl, answer_atEnd] at hafter
  rw [statements]
  cases hseen : input.kind? s'.position with
  | some kind =>
    -- a statement would have followed
    rw [hseen] at hanswer
    cases hanswer
  | none =>
    rw [hseen] at hafter
    have hend : input.symbols.size ≤ s'.position := by
      by_contra hlt
      obtain ⟨kind, hkind⟩ := exists_kind? (Nat.not_le.mp hlt)
      rw [hseen] at hkind
      cases hkind
    refine ⟨?_, ?_⟩
    · rw [show after (repeating _) input s = s' from hafter]
      exact Nat.le_antisymm hforward.le_size hend
    · rw [show after (repeating _) input s = s' from hafter]
      exact hforward.cutShort

/-- `parse` passes every symbol, and is not ended early: the leaves of the tree are all positions in
order. -/
theorem parse_complete (input : Input) :
    (parse input).tree.leaves = List.range input.symbols.size ∧
      (parse input).cutShort = false := by
  obtain ⟨hposition, hcut⟩ := statements_complete input (s := startState) (Nat.zero_le _)
  refine ⟨?_, hcut⟩
  rw [(parse_spec input).2.1, finalState, hposition]

end CodeLayout.Grammar
