import CodeLayout.Proofs.Grammar.Alike

/-!
# Rules are built alike

The body of every rule is alike whatever rules it calls (`Rule.alike_body`), so what holds of all parts
from which a parse is built holds of all rules.
-/

namespace CodeLayout.Grammar

open List
open CodeLayout.Tree (braces)

section Rules

variable {f g : Rules} {calls : Bool} {kind : TokenKind} {kinds : List TokenKind} {m n : Nat}

/-- The parse is built alike from either rules. -/
abbrev Built (f g : Rules) (calls : Bool) (kinds : List TokenKind) (m n : Nat)
    (p : Rules → Parse Unit) : Prop := Alike f g calls anyNode kinds m n (p f) (p g)

/-! ## Declarations -/

theorem alike_attributeItem : Built f g calls kinds m n attributeItem :=
  .node nofun (.bind (.expect (by decide)) fun _ _ => .when (fun _ => .rule .arguments) (.pure ()))

variable {N : NodeKind → Prop} {nodeKind : NodeKind} {power : Power} {least : Nat}

theorem alike_attributeGroups (hmade : N .attributeGroup) :
    Alike f g calls N kinds m n (attributeGroups f) (attributeGroups g) := by
  refine .repeating fun _ => .when (fun _ => .bind (.nodeOf hmade nofun ?_) fun _ _ => .pure true)
    (.pure false)
  exact .next (by decide) (.bind (.itemsUntil fun _ => alike_attributeItem) fun _ _ =>
    .expect (by decide))

theorem alike_modifiers : Built f g calls kinds m n fun _ => modifiers := by
  have hmodifier {kind : TokenKind} (h : kind.isModifier = true) : kind ∉ braces := by
    intro hmem
    have hbraces : ∀ k ∈ braces, k.isModifier = false := by decide
    rw [hbraces kind hmem] at h
    cases h
  refine .repeating fun _ => .whenSeen (K := (·.isModifier = true)) looks_checkModifier ?_
    (fun _ _ h => .next (hmodifier h) (.pure true)) (.pure false)
  intro input s h
  have hanswer : answer checkModifier input s =
      ((input.kind? s.position).map TokenKind.isModifier).getD false := rfl
  rw [hanswer] at h
  cases hseen : input.kind? s.position with
  | none =>
    rw [hseen] at h
    cases h
  | some kind =>
    rw [hseen] at h
    exact ⟨kind, rfl, h⟩

theorem alike_typeAtom : Built f g calls kinds m n fun _ => typeAtom :=
  .expectAny (by decide)

theorem seen_of_intersectionAhead {input : Input} {s : State}
    (h : answer intersectionAhead input s = true) :
    ∃ kind, input.kind? s.position = some kind ∧ kind = .ampersand := by
  rw [intersectionAhead, answer_look rfl] at h
  split at h
  · next hyes => exact ⟨.ampersand, by simpa using hyes, rfl⟩
  · cases h

theorem alike_intersection : Built f g calls kinds m n intersection := by
  refine .bind (.eat (by decide)) fun _ _ => .ite (fun _ => ?_) fun _ => .marker fun _ _ => ?_
  · exact .bind (.rule .intersection) fun _ _ => .expect (by decide)
  · refine .bind alike_typeAtom fun _ _ => .look looks_intersectionAhead fun _ _ =>
      .ite (fun _ => .wrap nofun (.repeating fun _ => ?_)) fun _ => .pure ()
    refine .whenSeen looks_intersectionAhead (fun _ _ => seen_of_intersectionAhead) ?_ (.pure false)
    rintro _ rest rfl
    exact .next (by decide) (.bind alike_typeAtom fun _ _ => .pure true)

theorem alike_type : Built f g calls kinds m n type := by
  refine .when (fun _ => .node nofun (.next (by decide) alike_typeAtom)) (.marker fun _ _ => ?_)
  refine .bind (.rule .intersection) fun _ _ => .when (fun _ => .wrap nofun ?_) (.pure ())
  exact .whileEating (by decide) fun _ => .rule .intersection

theorem alike_colonType (hkind : nodeKind ≠ .callExpr) :
    Built f g calls kinds m n (colonType · nodeKind) :=
  .when (fun _ => .node (fun h => absurd h hkind) (.next (by decide) alike_type)) (.pure ())

theorem alike_param : Built f g calls kinds m n param := by
  refine .node nofun (.bind (alike_attributeGroups trivial) fun _ _ => ?_)
  refine .bind alike_modifiers fun _ _ => ?_
  refine .look looks_atTypeStart fun _ _ => .optional (fun _ => alike_type) fun _ => ?_
  refine .bind (.skip (by decide)) fun _ _ => .bind (.skip (by decide)) fun _ _ => ?_
  exact .bind (.expect (by decide)) fun _ _ => .bind (.eat (by decide)) fun _ _ =>
    .ite (fun _ => .expr) fun _ => .pure ()

theorem alike_paramList : Built f g calls kinds m n paramList :=
  .node nofun (.bind (.expect (by decide)) fun _ _ => .bind (.itemsUntil fun _ => alike_param)
    fun _ _ => .expect (by decide))

theorem alike_returnType : Built f g calls kinds m n returnType :=
  alike_colonType nofun

theorem alike_functionRest (hkind : kind ∉ braces) :
    Built f g calls (kind :: kinds) m n functionRest := by
  refine .next hkind (.bind (.skip (by decide)) fun _ _ => .bind .expectMemberName fun _ _ => ?_)
  refine .bind alike_paramList fun _ _ => .bind alike_returnType fun _ _ => ?_
  exact .when (fun _ => .rule .block) .expectEnd

theorem alike_inheritanceClause {keyword : TokenKind} (hkeyword : keyword ∉ braces)
    (hkind : nodeKind ≠ .callExpr) :
    Alike f g calls anyNode kinds m n (inheritanceClause keyword nodeKind)
      (inheritanceClause keyword nodeKind) :=
  .when (fun _ => .node (fun h => absurd h hkind) (.next hkeyword (.commaSeparated fun _ =>
    .expect (by decide)))) (.pure ())

theorem alike_inheritance : Built f g calls kinds m n fun _ => inheritance :=
  .bind (alike_inheritanceClause (by decide) nofun) fun _ _ =>
    alike_inheritanceClause (by decide) nofun

theorem alike_constElement : Built f g calls kinds m n constElement :=
  .node nofun (.bind .expectMemberName fun _ _ => .bind (.expect (by decide)) fun _ _ => .expr)

theorem alike_propertyElement : Built f g calls kinds m n propertyElement :=
  .node nofun (.bind (.expect (by decide)) fun _ _ => .bind (.eat (by decide)) fun _ _ =>
    .ite (fun _ => .expr) fun _ => .pure ())

theorem alike_propertyRest :
    Alike f g calls anyNode kinds m n (propertyRest f m) (propertyRest g n) := by
  refine .wrap nofun (.look looks_check fun _ _ => .optional (fun _ => alike_type) fun _ => ?_)
  exact .bind (.commaSeparated fun _ => alike_propertyElement) fun _ _ => .expectEnd

theorem alike_traitUseRest (hkind : kind ∉ braces) :
    Built f g calls (kind :: kinds) m n fun _ => traitUseRest := by
  refine .next hkind (.bind (.commaSeparated fun _ => .expect (by decide)) fun _ _ => ?_)
  exact .when (fun _ => .node nofun .skipped) .expectEnd

theorem alike_modifiedMember :
    Alike f g calls anyNode kinds m n (modifiedMember f m) (modifiedMember g n) := by
  refine .look looks_checkModifier fun _ _ => .bind alike_modifiers fun _ kinds' => .peek ?_
  split
  · next hseen =>
    refine .of_seen hseen fun _ => .wrap nofun (.next (by decide) ?_)
    refine .look looks_atTypeStart fun _ _ => ?_
    refine .look (looks_peekAt 1) fun _ _ => .optional (fun _ => alike_type) fun _ => ?_
    exact .bind (.commaSeparated fun _ => alike_constElement) fun _ _ => .expectEnd
  · next hseen => exact .of_seen hseen fun _ => .wrap nofun (alike_functionRest (by decide))
  · exact alike_propertyRest
  · exact .look looks_atTypeStart fun _ _ => .ite (fun _ => alike_propertyRest) fun _ => .unexpected

theorem alike_classMember : Built f g calls kinds m n classMember := by
  refine .marker fun _ _ => .bind (alike_attributeGroups trivial) fun _ kinds' => .peek ?_
  split
  · next hseen => exact .of_seen hseen fun _ => .wrap nofun (alike_traitUseRest (by decide))
  · next hseen =>
    refine .of_seen hseen fun _ => .wrap nofun (.next (by decide) ?_)
    refine .bind .expectMemberName fun _ _ => ?_
    exact .bind (.eat (by decide)) fun _ _ => .optional (fun _ => .expr) fun _ => .expectEnd
  · exact alike_modifiedMember

theorem alike_classBody : Built f g calls kinds m n classBody := by
  refine .node nofun (.braced (.inl rfl) fun _ => .repeating fun _ => ?_)
  exact .look looks_check fun _ _ => .look looks_atEnd fun _ _ => .ite (fun _ => .pure false)
    fun _ => .bind (.guarded alike_classMember) fun _ _ => .pure true

theorem alike_typeDeclRest (hkind : kind ∉ braces) :
    Built f g calls (kind :: kinds) m n (typeDeclRest · nodeKind) := by
  refine .next hkind (.bind (.expect (by decide)) fun _ _ => ?_)
  refine .optional (fun _ => alike_colonType nofun) fun _ => ?_
  exact .bind alike_inheritance fun _ _ => alike_classBody

/-- `declarationKind?` tells a declaration by a keyword. -/
theorem of_declarationKind? (h : declarationKind? kind = some nodeKind) :
    kind ∉ braces ∧ nodeKind ≠ .callExpr := by
  unfold declarationKind? at h
  split at h <;> cases h <;> decide

theorem alike_declaration : Built f g calls kinds m n declaration := by
  refine .marker fun _ _ => .bind (alike_attributeGroups trivial) fun _ _ => ?_
  refine .bind alike_modifiers fun _ kinds' => .peek ?_
  split
  · next hseen =>
    obtain ⟨kind, hkind, htold⟩ := Option.bind_eq_some_iff.mp hseen
    obtain ⟨rest, rfl⟩ := head?_eq_some_iff.mp hkind
    exact .wrap nofun (alike_functionRest (of_declarationKind? htold).1)
  · next hseen =>
    obtain ⟨kind, hkind, htold⟩ := Option.bind_eq_some_iff.mp hseen
    obtain ⟨rest, rfl⟩ := head?_eq_some_iff.mp hkind
    obtain ⟨hbrace, hcall⟩ := of_declarationKind? htold
    exact .wrap (fun h => absurd h hcall) (alike_typeDeclRest hbrace)
  · exact .unexpected

/-! ## Expressions -/

theorem alike_argument : Built f g calls kinds m n argument := by
  refine .peek (.peekAt (.ite (fun hnamed => .node nofun ?_) fun _ => .expr))
  -- a name and a colon are ahead
  match kinds, hnamed with
  | [], hnamed => cases hnamed
  | [_], hnamed => simp at hnamed
  | word :: sign :: rest, hnamed =>
    obtain ⟨hword, rfl⟩ : (word = .name ∨ word.isKeyword = true) ∧ sign = .colon := by
      simpa using hnamed
    have hbrace : word ∉ braces := by
      rcases hword with rfl | hword
      · decide
      · exact not_brace_of_isKeyword hword
    exact .next hbrace (.next (by decide) .expr)

theorem alike_arguments :
    Alike f g calls Rule.arguments.makes kinds m n (arguments f) (arguments g) := by
  refine .nodeOf rfl nofun (.bind (.expect (by decide)) fun _ kinds' => .check (.peekAt ?_))
  refine .optional (fun hellipsis => ?_) fun _ => ?_
  · obtain ⟨hseen, -⟩ := Bool.and_eq_true_iff.mp hellipsis
    obtain ⟨rest, rfl⟩ := head?_eq_some_iff.mp (beq_iff_eq.mp hseen)
    exact .bump (by decide)
  · exact .bind (.itemsUntil fun _ => alike_argument) fun _ _ => .expect (by decide)

theorem alike_arrayElement : Built f g calls kinds m n arrayElement :=
  .node nofun (.bind .expr fun _ _ => .bind (.eat (by decide)) fun _ _ =>
    .ite (fun _ => .expr) fun _ => .pure ())

theorem alike_arrayElements {close : TokenKind} :
    Built f g calls kinds m n (arrayElements · close) := by
  refine .repeating fun _ => .look looks_check fun _ _ => .look looks_atEnd fun _ _ => ?_
  refine .ite (fun _ => .pure false) fun _ => .bind (.eat (by decide)) fun _ _ => ?_
  exact .ite (fun _ => .pure true) fun _ => .bind alike_arrayElement fun _ _ => .eat (by decide)

theorem alike_parenthesised (hmade : N .parenExpr) (hkind : kind ∉ braces) :
    Alike f g calls N (kind :: kinds) m n (parenthesised f) (parenthesised g) :=
  .nodeOf hmade nofun (.next hkind (.bind .expr fun _ _ => .expect (by decide)))

theorem alike_newExpr (hkind : kind ∉ braces) :
    Alike f g calls Rule.primary.makes (kind :: kinds) m n (newExpr f) (newExpr g) := by
  have harguments {kinds' : List TokenKind} : Alike f g calls anyNode kinds' 0 0
      (do if ← check .parenBegin then f .arguments) (do if ← check .parenBegin then g .arguments) :=
    .when (fun _ => .rule .arguments) (.pure ())
  refine .nodeOf ⟨nofun, nofun⟩ nofun (.next hkind (.when (fun _ =>
    .node nofun (.next (by decide) ?_)) ?_))
  · refine .look looks_check fun _ _ => .optional (fun _ => .rule .arguments) fun _ => ?_
    exact .bind alike_inheritance fun _ _ => alike_classBody
  · refine .peek ?_
    split
    · next hseen => exact .of_seen hseen fun _ => .next (by decide) harguments
    · next hseen => exact .of_seen hseen fun _ => .next (by decide) harguments
    · next hseen => exact .of_seen hseen fun _ => .next (by decide) harguments
    · next hseen =>
      refine .of_seen hseen fun _ => ?_
      exact .bind (alike_parenthesised trivial (by decide)) fun _ _ => harguments
    · exact .bind (.expect (by decide)) fun _ _ => harguments

theorem alike_armConditions : Built f g calls kinds m n armConditions := by
  refine .bind .expr fun _ _ => .repeating fun _ => .bind (.eat (by decide)) fun _ _ => ?_
  refine .ite (fun _ => ?_) fun _ => .pure false
  exact .look looks_check fun _ _ => .ite (fun _ => .pure false) fun _ =>
    .bind .expr fun _ _ => .pure true

theorem alike_matchArm : Built f g calls kinds m n matchArm := by
  refine .node nofun (.bind (.eat (by decide)) fun _ _ => ?_)
  refine .optional (fun _ => alike_armConditions) fun _ => ?_
  exact .bind (.expect (by decide)) fun _ _ => .expr

theorem alike_matchExpr (hkind : kind ∉ braces) :
    Alike f g calls Rule.primary.makes (kind :: kinds) m n (matchExpr f) (matchExpr g) :=
  .nodeOf ⟨nofun, nofun⟩ nofun (.next hkind (.bind .condition fun _ _ =>
    .braced (.inl rfl) fun _ => .itemsUntil fun _ => alike_matchArm))

theorem alike_closureUse (hkind : kind ∉ braces) :
    Built f g calls (kind :: kinds) m n fun _ => closureUse :=
  .node nofun (.next hkind (.bind (.expect (by decide)) fun _ _ => .bind (.itemsUntil fun _ =>
    .bind (.skip (by decide)) fun _ _ => .expect (by decide)) fun _ _ => .expect (by decide)))

theorem alike_closure :
    Alike f g calls Rule.primary.makes kinds m n (closure f m) (closure g n) := by
  refine .bind (.skip (by decide)) fun _ _ => .when (fun _ => .wrapOf ⟨nofun, nofun⟩ nofun ?_)
    (.wrapOf ⟨nofun, nofun⟩ nofun ?_)
  · refine .next (by decide) (.bind (.skip (by decide)) fun _ _ => ?_)
    refine .bind alike_paramList fun _ _ => ?_
    exact .bind alike_returnType fun _ _ => .bind (.expect (by decide)) fun _ _ => .atLeast _
  · refine .bind (.expect (by decide)) fun _ _ => .bind (.skip (by decide)) fun _ _ => ?_
    refine .bind alike_paramList fun _ _ => ?_
    have hrest {kinds' : List TokenKind} : Alike f g calls anyNode kinds' 0 0
        (do returnType f; f .block) (do returnType g; g .block) :=
      .bind alike_returnType fun _ _ => .rule .block
    exact .when (fun _ => .bind (alike_closureUse (by decide)) fun _ _ => hrest) hrest

theorem alike_dynamicName (hkind : kind ∉ braces) :
    Alike f g calls Rule.primary.makes (kind :: kinds) m n (dynamicName f) (dynamicName g) :=
  .nodeOf ⟨nofun, nofun⟩ nofun (.next hkind (.eatBraces (fun _ => .expr) (.rule .primary)))

theorem alike_reservedPrimary :
    Alike f g calls N (kind :: kinds) m n (reservedPrimary kind) (reservedPrimary kind) := by
  refine .look (looks_peekAt 1) fun _ _ => .ite (fun hword => .bump ?_) fun _ => .refuses ?_
  · exact not_brace_of_isKeyword (Bool.and_eq_true_iff.mp hword).1
  · -- any other word is reported, whatever is passed then
    intro input s _
    have hproblem : ¬ Clean (after (unexpected .expression) input s) := not_clean_report
    rw [after_bind]
    split
    · exact hproblem
    · exact hproblem
    · exact hproblem
    · exact hproblem
    · exact hproblem
    · exact not_clean_bump hproblem

theorem alike_primary : Alike f g calls Rule.primary.makes kinds m n (primary f) (primary g) := by
  have hclosure {kinds' : List TokenKind} : Alike f g calls Rule.primary.makes kinds' m n
      (do let since ← marker; attributeGroups f; closure f since)
      (do let since ← marker; attributeGroups g; closure g since) :=
    .marker fun _ _ => .bind (alike_attributeGroups ⟨nofun, nofun⟩) fun _ _ => alike_closure
  refine .peek ?_
  cases kinds with
  | nil => exact .unexpected
  | cons kind rest =>
    refine .peekAt ?_
    split
    · exact .bump (by decide)
    · exact .bump (by decide)
    · exact .bump (by decide)
    · exact .bump (by decide)
    · exact .bump (by decide)
    · exact alike_dynamicName (by decide)
    · exact alike_parenthesised ⟨nofun, nofun⟩ (by decide)
    · exact .nodeOf ⟨nofun, nofun⟩ nofun (.next (by decide) (.bind alike_arrayElements
        fun _ _ => .expect (by decide)))
    · refine .nodeOf ⟨nofun, nofun⟩ nofun (.next (by decide) (.bind (.expect (by decide))
        fun _ _ => ?_))
      exact .bind alike_arrayElements fun _ _ => .expect (by decide)
    · exact alike_newExpr (by decide)
    · exact alike_matchExpr (by decide)
    · exact hclosure
    · exact hclosure
    · exact hclosure
    · refine .ite (fun hnext => .nodeOf ⟨nofun, nofun⟩ nofun ?_) fun _ => alike_reservedPrimary
      cases rest with
      | nil => cases hnext
      | cons next rest =>
        obtain rfl : next = .parenBegin := by simpa using hnext
        refine .next (by decide) (.next (by decide) (.bind alike_arrayElements fun _ _ => ?_))
        exact .expect (by decide)
    · exact .ite (fun _ => .marker fun _ _ => alike_closure) fun _ => alike_reservedPrimary
    · exact alike_reservedPrimary

theorem alike_memberName : Built f g calls kinds m n memberName := by
  refine .peek ?_
  split
  · next hseen => exact .of_seen hseen fun _ => .bump (by decide)
  · next hseen => exact .node nofun (.braced (.inr ⟨rfl, hseen⟩) fun _ => .expr)
  · exact .rule .primary
  · exact .expectMemberName

theorem alike_memberAccess {plain called : NodeKind} (hkind : kind ∉ braces)
    (hplain : plain ≠ .callExpr) (hcalled : called ≠ .callExpr) :
    Alike f g calls anyNode (kind :: kinds) m n (memberAccess f m plain called)
      (memberAccess g n plain called) := by
  refine .look looks_callAhead fun _ _ => .ite (fun _ => ?_) fun _ => ?_
  · exact .wrap (fun h => absurd h hcalled) (.next hkind (.bind alike_memberName fun _ _ =>
      .rule .arguments))
  · exact .wrap (fun h => absurd h hplain) (.next hkind alike_memberName)

theorem alike_postfixStep :
    Alike f g true anyNode kinds m n (postfixStep f m) (postfixStep g n) := by
  refine .peek ?_
  have haccess {plain called : NodeKind} {kind : TokenKind} {kinds' : List TokenKind}
      (hkind : kind ∉ braces) (hplain : plain ≠ .callExpr) (hcalled : called ≠ .callExpr) :
      Alike f g true anyNode (kind :: kinds') m n
        (memberAccess f m plain called >>= fun _ => Pure.pure true)
        (memberAccess g n plain called >>= fun _ => Pure.pure true) :=
    .bind (alike_memberAccess hkind hplain hcalled) fun _ _ => .pure true
  split
  · exact .bind (.wrap (fun _ => rfl) (.rule .arguments)) fun _ _ => .pure true
  · next hseen => exact .of_seen hseen fun _ => haccess (by decide) nofun nofun
  · next hseen => exact .of_seen hseen fun _ => haccess (by decide) nofun nofun
  · next hseen => exact .of_seen hseen fun _ => haccess (by decide) nofun nofun
  · next hseen =>
    refine .of_seen hseen fun _ => .bind (.wrap nofun (.next (by decide) ?_)) fun _ _ => .pure true
    exact .look looks_check fun _ _ => .optional (fun _ => .expr) fun _ => .expect (by decide)
  · next hseen =>
    exact .of_seen hseen fun _ => .bind (.wrap nofun (.bump (by decide))) fun _ _ => .pure true
  · next hseen =>
    exact .of_seen hseen fun _ => .bind (.wrap nofun (.bump (by decide))) fun _ _ => .pure true
  · exact .pure false

theorem alike_operand : Built f g calls kinds m n operand := by
  have hoperand : Alike f g true anyNode kinds m n (operand f) (operand g) :=
    .marker fun _ _ => .bind (.rule .primary) fun _ _ => .repeating fun _ => alike_postfixStep
  cases calls with
  | true => exact hoperand
  | false => exact .operand hoperand

theorem alike_leading (hkind : kind ∉ braces) (hnode : nodeKind ≠ .callExpr) :
    Alike f g calls anyNode (kind :: kinds) m n
      (leading f nodeKind power) (leading g nodeKind power) :=
  .node (fun h => absurd h hnode) (.next hkind (.atLeast power))

theorem alike_unary : Built f g calls kinds m n unary := by
  have hoperand : Alike f g calls anyNode kinds m n
      (do
        let since ← marker
        operand f
        if ← checkAny [.assign, .compoundAssign] then
          wrap since .assignExpr do
            bump
            f.atLeast .ternary)
      (do
        let since ← marker
        operand g
        if ← checkAny [.assign, .compoundAssign] then
          wrap since .assignExpr do
            bump
            g.atLeast .ternary) := by
    have hassign : ∀ kind ∈ [TokenKind.assign, .compoundAssign], kind ∉ braces := by decide
    refine .marker fun _ _ => .bind alike_operand fun _ _ => ?_
    refine .whenAny (fun kind hmem _ => ?_) (.pure ())
    exact .wrap nofun (.next (hassign kind hmem) (.atLeast _))
  refine .peek ?_
  cases kinds with
  | nil => exact hoperand
  | cons kind rest =>
    dsimp only [head?_cons]
    split
    case h_16 => exact hoperand
    case h_11 hseen =>
      cases hseen
      exact .node nofun (.next (by decide) (.rule .unary))
    case h_15 hseen =>
      cases hseen
      refine .node nofun (.next (by decide) (.look looks_atExpressionEnd fun _ _ => ?_))
      refine .ite (fun _ => .bind (.atLeast _) fun _ _ => ?_) fun _ => .pure ()
      exact .bind (.eat (by decide)) fun _ _ => .ite (fun _ => .atLeast _) fun _ => .pure ()
    all_goals
      next hseen =>
      cases hseen
      exact alike_leading (by decide) nofun

theorem alike_infixRest (hkind : kind ∉ braces) :
    Built f g calls (kind :: kinds) m n (infixRest · power) := by
  refine .next hkind ?_
  split
  · refine .bind (.eat (by decide)) fun _ _ => .ite (fun _ => ?_) fun _ => .above _
    exact .bind (.atLeast _) fun _ _ => .bind (.expect (by decide)) fun _ _ => .above _
  · exact .atLeast _
  · exact .atLeast _
  · exact .above _

theorem alike_infixStep :
    Alike f g calls anyNode kinds m n (infixStep f m least) (infixStep g n least) := by
  have hnopower : ∀ kind ∈ braces, Power.ofInfix? kind = none := by decide
  have hkind (power : Power) : infixKind power ≠ .callExpr := by cases power <;> decide
  refine .peek ?_
  split
  · next power hseen =>
    obtain ⟨kind, hhead, hpower⟩ := Option.bind_eq_some_iff.mp hseen
    obtain ⟨rest, rfl⟩ := head?_eq_some_iff.mp hhead
    have hbrace : kind ∉ braces := fun hmem => by
      rw [hnopower kind hmem] at hpower
      cases hpower
    refine .ite (fun _ => .pure false) fun _ => ?_
    exact .bind (.wrap (fun h => absurd h (hkind power)) (alike_infixRest hbrace)) fun _ _ =>
      .pure true
  · exact .pure false

theorem alike_expression : Built f g calls kinds m n (expression · least) :=
  .marker fun _ _ => .bind (.rule .unary) fun _ _ => .repeating fun _ => alike_infixStep

/-! ## Statements -/

theorem alike_statementsUntil {terminators : List TokenKind} :
    Built f g calls kinds m n (statementsUntil · terminators) :=
  .repeating fun _ => .look looks_atEnd fun _ _ => .look looks_checkAny fun _ _ =>
    .ite (fun _ => .pure false) fun _ => .bind (.rule .statement) fun _ _ => .pure true

theorem alike_block : Built f g calls kinds m n block :=
  .node nofun (.braced (.inl rfl) fun _ => alike_statementsUntil)

theorem alike_body : Built f g calls kinds m n body :=
  .when (fun _ => .reported) (.rule .statement)

theorem alike_exprStmt (hmade : N .exprStmt) :
    Alike f g calls N kinds m n (exprStmt f) (exprStmt g) :=
  .nodeOf hmade nofun (.bind .expr fun _ _ => .expectEnd)

theorem alike_forPart {terminator : TokenKind} (hkind : terminator ∉ braces) :
    Built f g calls kinds m n (forPart · terminator) :=
  .look looks_check fun _ _ => .optional (fun _ => .commaSeparated fun _ => .expr) fun _ =>
    .expect hkind

theorem alike_foreachTarget : Built f g calls kinds m n foreachTarget :=
  .when (fun _ => .node nofun (.next (by decide) alike_operand)) alike_operand

/-- `caseClause` starts with its keyword; where that is eaten, an expression follows. -/
theorem alike_caseClause (hkind : kind ∈ [TokenKind.caseKw, .defaultKw]) :
    Built f g calls (kind :: kinds) m n caseClause := by
  have hrest {kinds' : List TokenKind} : Alike f g calls anyNode kinds' 0 0
      (do expectAny [.colon, .semiColon]; statementsUntil f [.caseKw, .defaultKw, .blockEnd])
      (do expectAny [.colon, .semiColon]; statementsUntil g [.caseKw, .defaultKw, .blockEnd]) :=
    .bind (.expectAny (by decide)) fun _ _ => alike_statementsUntil
  refine .node nofun ?_
  rcases mem_cons.mp hkind with rfl | hkind
  · exact .eaten rfl (.next (by decide) (.bind .expr fun _ _ => hrest))
  · obtain rfl := mem_singleton.mp hkind
    exact .uneaten nofun (.next (by decide) hrest)

theorem alike_useType : Built f g calls kinds m n fun _ => useType := by
  have hwords : ∀ kind ∈ [TokenKind.functionKw, .constKw], kind ∉ braces := by decide
  exact .whenAny (fun kind hmem _ => .bump (hwords kind hmem)) (.pure ())

theorem alike_useClause : Built f g calls kinds m n useClause := by
  refine .node nofun (.bind alike_useType fun _ _ => .bind (.expect (by decide)) fun _ _ => ?_)
  refine .bind (.eat (by decide)) fun _ _ => .optional (fun _ => .node nofun ?_) fun _ => ?_
  · exact .braced (.inl rfl) fun _ => .itemsUntil fun _ => .rule .useClause
  · exact .bind (.eat (by decide)) fun _ _ => .ite (fun _ => .expectMemberName) fun _ => .pure ()

theorem alike_directive : Built f g calls kinds m n directive :=
  .bind (.expect (by decide)) fun _ _ => .bind (.expect (by decide)) fun _ _ => .expr

section

variable (hkind : kind ∉ braces)
include hkind

theorem alike_conditional : Built f g calls (kind :: kinds) m n conditional :=
  .next hkind (.bind .condition fun _ _ => alike_body)

theorem alike_ifStmt : Built f g calls (kind :: kinds) m n ifStmt := by
  refine .node nofun (.bind (alike_conditional hkind) fun _ _ => .bind (.repeating fun _ => ?_)
    fun _ _ => .when (fun _ => .node nofun (.next (by decide) alike_body)) (.pure ()))
  exact .when (fun _ => .bind (.node nofun (alike_conditional (by decide))) fun _ _ => .pure true)
    (.pure false)

theorem alike_doStmt : Built f g calls (kind :: kinds) m n doStmt :=
  .node nofun (.next hkind (.bind (.rule .statement) fun _ _ => .bind (.expect (by decide))
    fun _ _ => .bind .condition fun _ _ => .expectEnd))

theorem alike_forStmt : Built f g calls (kind :: kinds) m n forStmt := by
  refine .node nofun (.next hkind (.bind (.expect (by decide)) fun _ _ => ?_))
  refine .bind (alike_forPart (by decide)) fun _ _ => ?_
  refine .bind (alike_forPart (by decide)) fun _ _ => ?_
  exact .bind (alike_forPart (by decide)) fun _ _ => alike_body

theorem alike_foreachStmt : Built f g calls (kind :: kinds) m n foreachStmt := by
  refine .node nofun (.next hkind (.bind (.expect (by decide)) fun _ _ => ?_))
  refine .bind .expr fun _ _ => ?_
  refine .bind (.expect (by decide)) fun _ _ => .bind alike_foreachTarget fun _ _ => ?_
  refine .bind (.eat (by decide)) fun _ _ => .optional (fun _ => alike_foreachTarget) fun _ => ?_
  exact .bind (.expect (by decide)) fun _ _ => alike_body

theorem alike_switchStmt : Built f g calls (kind :: kinds) m n switchStmt := by
  refine .node nofun (.next hkind (.bind .condition fun _ _ => .node nofun ?_))
  refine .braced (.inl rfl) fun _ => .repeating fun _ => ?_
  refine .whenAny (fun kind hmem _ => ?_) (.pure false)
  exact .bind (alike_caseClause hmem) fun _ _ => .pure true

theorem alike_catchClause : Built f g calls (kind :: kinds) m n catchClause := by
  refine .node nofun (.next hkind (.bind (.expect (by decide)) fun _ _ => ?_))
  refine .bind (.expect (by decide)) fun _ _ => ?_
  refine .bind (.whileEating (by decide) fun _ => .expect (by decide)) fun _ _ => ?_
  exact .bind (.skip (by decide)) fun _ _ => .bind (.expect (by decide)) fun _ _ => .rule .block

theorem alike_tryStmt : Built f g calls (kind :: kinds) m n tryStmt := by
  refine .node nofun (.next hkind (.bind (.rule .block) fun _ _ => .bind (.repeating fun _ => ?_)
    fun _ _ => .when (fun _ => .node nofun (.next (by decide) (.rule .block))) (.pure ())))
  exact .when (fun _ => .bind (alike_catchClause (by decide)) fun _ _ => .pure true) (.pure false)

theorem alike_returnStmt : Built f g calls (kind :: kinds) m n returnStmt :=
  .node nofun (.next hkind (.look looks_atExpressionEnd fun _ _ =>
    .optional (fun _ => .expr) fun _ => .expectEnd))

theorem alike_jumpStmt : Built f g calls (kind :: kinds) m n fun _ => jumpStmt :=
  .node nofun (.next hkind (.bind (.skip (by decide)) fun _ _ => .expectEnd))

theorem alike_exprListStmt (hnode : nodeKind ≠ .callExpr) :
    Built f g calls (kind :: kinds) m n (exprListStmt · nodeKind) :=
  .node (fun h => absurd h hnode) (.next hkind (.bind (.commaSeparated fun _ => .expr) fun _ _ =>
    .expectEnd))

theorem alike_echoTag : Built f g calls (kind :: kinds) m n echoTag :=
  .node nofun (.next hkind (.bind (.commaSeparated fun _ => .expr) fun _ _ => .skip (by decide)))

theorem alike_globalStmt : Built f g calls (kind :: kinds) m n fun _ => globalStmt :=
  .node nofun (.next hkind (.bind (.commaSeparated fun _ => .expect (by decide)) fun _ _ =>
    .expectEnd))

theorem alike_namespaceDecl : Built f g calls (kind :: kinds) m n namespaceDecl :=
  .node nofun (.next hkind (.bind (.skip (by decide)) fun _ _ =>
    .when (fun _ => .rule .block) .expectEnd))

theorem alike_useStmt : Built f g calls (kind :: kinds) m n useStmt :=
  .node nofun (.next hkind (.bind alike_useType fun _ _ =>
    .bind (.commaSeparated fun _ => .rule .useClause) fun _ _ => .expectEnd))

theorem alike_constStmt : Built f g calls (kind :: kinds) m n constStmt :=
  .node nofun (.next hkind (.bind (.commaSeparated fun _ => alike_constElement) fun _ _ =>
    .expectEnd))

theorem alike_declareStmt : Built f g calls (kind :: kinds) m n declareStmt := by
  refine .node nofun (.next hkind (.bind (.expect (by decide)) fun _ _ => ?_))
  refine .bind (.commaSeparated fun _ => alike_directive) fun _ _ => .bind (.expect (by decide))
    fun _ _ => ?_
  exact .when (fun _ => .rule .statement) .expectEnd

end

theorem alike_plainStatement : Built f g calls kinds m n plainStatement := by
  refine .ahead ?_
  have hexpr : Built f g calls kinds m n exprStmt :=
    alike_exprStmt trivial
  have hdecl : Built f g calls kinds m n declaration :=
    alike_declaration
  have hhead : (kinds.take (lookaheadLimit + 3)).head? = kinds.head? := by
    cases kinds <;> rfl
  dsimp only
  rw [hhead]
  cases kinds with
  | nil => exact hexpr
  | cons kind rest =>
    have hplain {k : TokenKind} (hseen : some kind = some k) (hk : k ∉ braces) :
        kind ∉ braces := Option.some.inj hseen ▸ hk
    dsimp only [head?_cons]
    split
    · split
      · exact .ite (fun _ => hexpr) fun _ => hdecl
      · exact .ite (fun _ => hexpr) fun _ => hdecl
      · exact hdecl
    · exact .ite (fun _ => hexpr) fun _ => hdecl
    · exact hdecl
    · exact hdecl
    · exact hdecl
    · exact hdecl
    · exact hdecl
    · exact hdecl
    · exact .ite (fun _ => hdecl) fun _ => hexpr
    · next h => exact alike_ifStmt (hplain h (by decide))
    · next h => exact .node nofun (alike_conditional (hplain h (by decide)))
    · next h => exact alike_doStmt (hplain h (by decide))
    · next h => exact alike_forStmt (hplain h (by decide))
    · next h => exact alike_foreachStmt (hplain h (by decide))
    · next h => exact alike_switchStmt (hplain h (by decide))
    · next h => exact alike_tryStmt (hplain h (by decide))
    · next h => exact alike_returnStmt (hplain h (by decide))
    · next h => exact alike_jumpStmt (hplain h (by decide))
    · next h => exact alike_jumpStmt (hplain h (by decide))
    · next h => exact alike_exprListStmt (hplain h (by decide)) nofun
    · next h => exact alike_echoTag (hplain h (by decide))
    · next h => exact alike_globalStmt (hplain h (by decide))
    · next h =>
      exact .ite (fun _ => alike_exprListStmt (hplain h (by decide)) nofun) fun _ => hexpr
    · next h => exact .ite (fun _ => alike_namespaceDecl (hplain h (by decide))) fun _ => hexpr
    · next h => exact alike_useStmt (hplain h (by decide))
    · next h => exact alike_constStmt (hplain h (by decide))
    · next h => exact alike_declareStmt (hplain h (by decide))
    · exact .rule .block
    · next h => exact .node nofun (.bump (hplain h (by decide)))
    · exact .reported
    · exact hexpr

theorem alike_statement : Built f g calls kinds m n statement :=
  .guarded alike_plainStatement

/-- `Rule.body` is built alike, whatever rules it calls. -/
theorem Rule.alike_body (rule : Rule) :
    Alike f g calls rule.makes kinds m n (rule.body f) (rule.body g) := by
  cases rule with
  | statement => exact alike_statement
  | block => exact alike_block
  | expression power => exact alike_expression
  | unary => exact alike_unary
  | primary => exact alike_primary
  | arguments => exact alike_arguments
  | useClause => exact alike_useClause
  | intersection => exact alike_intersection

end Rules

end CodeLayout.Grammar
