import CodeLayout.Proofs.Grammar.Fronts
import Mathlib.Data.List.Basic

/-!
# What declarations and expressions add

Every rule has an effect on the tree (`Rule.effect`); here are those of declarations and expressions,
if the rules that they call have theirs (`RulesGrow`).  An expression adds no parenthesis of its own
outside of nodes, and an operand is one tree or missing (`Supplies`), so that an operator stands
behind the first tree of its node.
-/

namespace CodeLayout.Grammar

open List
open CodeLayout.Tree (Formed Headed Led Orderly)

/-- The leaves that an expression may add outside of nodes. -/
def operandLeaf : TokenKind → Prop := fun kind => kind ≠ .parenBegin ∧ kind ≠ .parenEnd

/-- What a rule adds. -/
def Rule.effect : Rule → Effect
  | statement | block => fun input _ more _ => Sole input more
  | expression _ | unary | primary => fun input _ more _ => Neat input operandLeaf more
  | arguments => fun input _ more _ => Neat input noLeaf more
  | intersection => fun input _ more _ => Front input anyLeaf more
  | useClause => Calm

/-- All rules grow, each with its effect. -/
def RulesGrow (call : Rules) : Prop := ∀ rule, Meets rule.effect (call rule)

section Rules

variable {call : Rules} {A : TokenKind → Prop}

namespace RulesGrow

theorem expression (hc : RulesGrow call) (power : Nat) :
    Grows operandLeaf (call (.expression power)) := hc (.expression power)

theorem expr (hc : RulesGrow call) : Grows operandLeaf call.expr := hc.expression _

section

variable (hc : RulesGrow call)
include hc

theorem atLeast (power : Power) : Grows operandLeaf (call.atLeast power) := hc.expression _

omit hc in
theorem unary (hc : RulesGrow call) : Grows operandLeaf (call .unary) := hc .unary

theorem primary : Grows operandLeaf (call .primary) := hc .primary

omit hc in
theorem statement (hc : RulesGrow call) : GrowsNode (call .statement) := hc .statement

theorem block : GrowsNode (call .block) := hc .block

theorem arguments : Grows A (call .arguments) := Grows.of_noLeaf (hc .arguments)

theorem intersection : Fronts anyLeaf (call .intersection) := hc .intersection

theorem useClause : Meets Calm (call .useClause) := hc .useClause

theorem condition : Grows anyLeaf call.condition :=
  .seq (.expect trivial) <| .seq hc.expr.any <| .expect trivial

end

end RulesGrow

/-! ## Parts that call no rule -/

theorem fronts_modifiers : Fronts anyLeaf modifiers :=
  .repeating (.cond (.of_after_eq fun _ _ => rfl) (.seq .bump .pure) .pure)

theorem fronts_atTypeStart : Fronts A atTypeStart := by
  refine .bind (.of_after_eq fun _ _ => rfl) fun kind => ?_
  split
  · exact .pure
  · exact .pure
  · exact .pure
  · exact .pure
  · exact .bind (.of_after_eq fun _ _ => rfl) fun _ => .pure
  · exact .pure

theorem fronts_expectEnd : Fronts anyLeaf expectEnd := by
  refine .cond .eat .pure (.bind (.of_after_eq fun _ _ => rfl) fun _ => ?_)
  exact .ite .pure .expectAny

theorem fronts_typeAtom : Fronts anyLeaf typeAtom := .expectAny

theorem after_intersectionAhead (input : Input) (s : State) :
    after intersectionAhead input s = s := by
  rw [intersectionAhead, after_bind]
  split
  · rw [after_bind]
    split <;> rfl
  · rfl

/-- `intersectionAhead` looks at nothing but the position. -/
theorem answer_intersectionAhead_congr {s' : State} (h : s'.position = s.position) :
    answer intersectionAhead input s' = answer intersectionAhead input s := by
  have hpeek : answer (peekAt 1) input (after (check .ampersand) input s') =
      answer (peekAt 1) input (after (check .ampersand) input s) := by
    show (input.symbols[s'.position + 1]?).map _ = (input.symbols[s.position + 1]?).map _
    rw [h]
  rw [intersectionAhead, answer_bind, answer_bind, answer_check, answer_check, h]
  split
  · rw [answer_bind, answer_bind, hpeek]
    split <;> rfl
  · rfl

/-- `intersectionAhead` sees an ampersand. -/
theorem kind?_of_intersectionAhead (h : answer intersectionAhead input s = true) :
    input.kind? s.position = some .ampersand := by
  by_cases hseen : answer (check .ampersand) input s = true
  · simpa using hseen
  · have hfalse : answer intersectionAhead input s =
        answer (if answer (check .ampersand) input s = true then _ else pure false) input s := rfl
    rw [hfalse, if_neg hseen] at h
    cases h

theorem grows_inheritanceClause {keyword : TokenKind} (hkind : plain kind = true) :
    Grows A (inheritanceClause keyword kind) :=
  .cond .check (.node hkind (.seq .bump <| .commaSeparated trivial (.expect trivial))) .pure

theorem grows_inheritance : Grows A inheritance :=
  .seq (grows_inheritanceClause rfl) <| grows_inheritanceClause rfl

theorem grows_skipBraces (n depth : Nat) : Grows anyLeaf (skipBraces n depth) := by
  induction n generalizing depth with
  | zero => exact .cutOff
  | succ n ih =>
    refine .bind .peek fun kind => ?_
    split
    · exact .pure
    · exact .seq .bump <| ih _
    · exact .ite .pure (.seq .bump <| ih _)
    · exact .seq .bump <| ih _

theorem grows_traitUseRest : Grows anyLeaf traitUseRest := by
  refine .seq .bump <| .seq (.commaSeparated trivial (.expect trivial)) ?_
  refine .cond .check (.node rfl (.seq .bump ?_)) .expectEnd
  exact .bind (.of_after_eq fun _ _ => rfl) fun _ => .seq (grows_skipBraces _ _) <| .expect trivial

theorem grows_callAhead : Grows A callAhead := by
  refine .cond .peekAt ?_ (.bind .peekAt fun _ => .pure)
  exact .bind (.of_after_eq fun _ _ => rfl) fun _ => .bind .ahead fun _ => .pure

theorem grows_atExpressionEnd : Grows A atExpressionEnd :=
  .cond .atEnd .pure (.cond .checkAny .pure .closedHere)

theorem grows_jumpStmt : GrowsNode jumpStmt :=
  .node rfl (.seq .bump <| .seq (.skip trivial) .expectEnd)

theorem grows_globalStmt : GrowsNode globalStmt :=
  .node rfl (.seq .bump <| .seq (.commaSeparated trivial (.expect trivial)) .expectEnd)

theorem calm_useType : Meets Calm useType :=
  .bind additive_calm (calm_look fun _ _ => rfl) fun _ => .ite calm_bump (.pure additive_calm)

/-! ## Declarations -/

section

variable (hc : RulesGrow call)
include hc

theorem grows_attributeItem : Grows A (attributeItem call) :=
  .node rfl (.seq (.expect trivial) <| .cond .check hc.arguments .pure)

theorem fronts_attributeGroups : Fronts A (attributeGroups call) := by
  have hrest : Grows anyLeaf (do itemsUntil .arrayEnd (attributeItem call); expect .arrayEnd) :=
    .seq (.itemsUntil trivial (grows_attributeItem hc)) <| .expect trivial
  refine .repeating (Meets.ifCheck (fun input s hseen => Adds.thenPure ?_) Fronts.pure)
  refine (Adds.led_bump rfl hseen (by decide) hrest).mono fun more _ h => ?_
  exact ⟨h.1.neat, fun t ht => (h.2 t ht).2⟩

theorem grows_attributeGroups : Grows A (attributeGroups call) := (fronts_attributeGroups hc).grows

variable {input : Input} {s : State} {kind : NodeKind}

theorem fronts_intersection : Fronts anyLeaf (intersection call) := by
  have hstep : Fronts anyLeaf (do
      if ← intersectionAhead then
        bump
        typeAtom
        return true
      return false) :=
    .cond (.of_after_eq after_intersectionAhead) (.seq .bump <| .seq fronts_typeAtom .pure) .pure
  refine .cond .eat (.seq hc.intersection .expectAny) ?_
  refine .marker (.seq fronts_typeAtom.since <| .ifLook after_intersectionAhead ?_ ?_)
  · refine Fronts.wrap rfl (fun _ _ _ h => h.1) fun input ts s b h => hstep.adds_repeating ?_
    -- the ampersand that was seen is the first thing to be passed
    have hcongr : answer intersectionAhead input { s with builder := b } =
        answer intersectionAhead input s := answer_intersectionAhead_congr rfl
    have hahead := hcongr.trans h.2
    refine Adds.look (after_intersectionAhead _ _) ?_
    rw [hahead]
    refine Adds.mono (Fronts.adds_bump (kind?_of_intersectionAhead hahead) ?_) fun _ _ h => h.2
    exact .seq fronts_typeAtom .pure
  · exact Fronts.pure.since

theorem fronts_type : Fronts anyLeaf (type call) := by
  refine Meets.ifCheck (fun input s hseen => ?_) ?_
  · have hbody : Adds input (fun more _ => Front input anyLeaf more ∧ more ≠ [])
        (do bump; typeAtom) { s with builder := s.builder.start .nullableType } :=
      Fronts.adds_bump hseen fronts_typeAtom
    refine (hbody.node fun cs _ _ => orderly_of_plain rfl cs).mono ?_
    rintro _ _ ⟨cs, _, rfl, hcs, hne⟩
    exact hcs.branch rfl hne
  · refine Fronts.marker (.seq hc.intersection.since <| .ifLook (fun _ _ => rfl) ?_ ?_)
    · have hstep : Fronts anyLeaf (do
          if ← eat .pipe then
            call .intersection
            return true
          return false) := .cond .eat (.seq hc.intersection .pure) .pure
      refine Fronts.wrap rfl (fun _ _ _ h => h.1) fun input ts s b h => hstep.adds_repeating ?_
      -- the bar that was seen is the first thing to be passed
      have hcheck : answer (check .pipe) input { s with builder := b } = true := h.2
      have hseen : input.kind? s.position = some .pipe := by simpa using hcheck
      have heat : Adds input (fun more _ => more ≠ []) (eat .pipe) { s with builder := b } := by
        have hpass : Adds input (fun more _ => Front input anyLeaf more ∧ more ≠ [])
            (do bump; pure true) { s with builder := b } := Fronts.adds_bump hseen .pure
        refine Adds.look rfl ?_
        rw [hcheck, if_pos rfl]
        exact hpass.mono fun _ _ h => h.2
      refine heat.bind (Fronts.ite (A := anyLeaf) (.seq hc.intersection .pure) .pure
        input _) ?_
      intro ts us _ hne _
      simp [hne]
    · exact Fronts.pure.since

theorem grows_type : Grows anyLeaf (type call) := (fronts_type hc).grows

theorem grows_colonType (hkind : plain kind = true) :
    Grows A (colonType call kind) := .cond .check (.node hkind (.seq .bump <| grows_type hc)) .pure

theorem grows_param : Grows A (param call) := by
  have hsigns : Heads (fun _ => False) (do
      skip .ampersand; skip .ellipsis; expect .varName
      if ← eat .assign then call.expr) := by
    refine .bind (.of_fronts .eat) fun _ => .bind (.of_fronts .eat) fun _ => ?_
    exact .seq (.of_fronts .expectAny) <| .ifEat (by decide) hc.expr.any
  have hbody : Heads (fun _ => False) (do
      attributeGroups call; modifiers
      if ← atTypeStart then type call
      skip .ampersand; skip .ellipsis; expect .varName
      if ← eat .assign then call.expr) := by
    refine .seq (.of_fronts (fronts_attributeGroups hc)) ?_
    refine .seq (.of_fronts fronts_modifiers) <| .bind (.of_fronts fronts_atTypeStart) fun _ => ?_
    exact .ite (.seq (.of_fronts (fronts_type hc)) hsigns) hsigns
  intro input s
  have hnode : Adds input (fun more _ => ∃ cs, more = [.branch .param cs] ∧ Sole input more)
      (param call) s := Adds.sole (hbody input _) fun cs _ h => ⟨trivial, h⟩
  exact hnode.mono fun _ _ ⟨_, _, h⟩ => h.neat

theorem grows_paramList : Grows A (paramList call) :=
  .node rfl (.seq (.expect trivial) <| .seq (.itemsUntil trivial (grows_param hc)) <|
    .expect trivial)

theorem grows_returnType : Grows A (returnType call) := grows_colonType hc rfl

theorem grows_functionRest : Grows anyLeaf (functionRest call) :=
  .seq .bump <| .seq (.skip trivial) <| .seq .expectMemberName <| .seq (grows_paramList hc) <|
    .seq (grows_returnType hc) <| .cond .check hc.block.grows .expectEnd

theorem grows_constElement : Grows A (constElement call) :=
  .node rfl (.seq .expectMemberName <| .seq (.expect trivial) hc.expr.any)

omit hc in
/-- `wrap` into a node of a kind that asks for a head may take in what stands in front of a
declaration. -/
theorem guardable_wrap_headed {body : Parse Unit} {P : Input → Outcomes} {Q : Tree → Prop}
    (hP : ∀ input ts s, P input ts s → Front input anyLeaf ts)
    (hkind : ∀ kindOf cs, Headed Q cs →
      Orderly kindOf kind cs ∧ Formed kindOf kind cs)
    (hbody : ∀ input ts s b, P input ts s → Adds input (fun us _ => Neat input anyLeaf us ∧
      Headed Q us) body { s with builder := b }) :
    Since P (fun input ts s => Guardable input ts s) fun since => wrap since kind body := by
  refine (Since.wrap (R := fun input cs => Neat input anyLeaf cs ∧ Headed Q cs) ?_
    fun input cs h => (hkind _ cs h.2).1).mono ?_
  · intro input ts s b hts
    refine (hbody input ts s b hts).mono fun us _ hus => ?_
    have hfront := hP input ts s hts
    exact ⟨neat_append.mpr ⟨hfront.neat, hus.1⟩, headed_append hfront.headed hus.2⟩
  · rintro input _ _ ⟨cs, rfl, hcs, hheaded⟩
    exact .inl (sole_branch hcs (hkind _ cs hheaded).2)

theorem heads_propertyElement :
    Heads (fun t => t.isKind .propertyElement = true) (propertyElement call) := by
  have hbody : Grows anyLeaf (do expect .varName; if ← eat .assign then call.expr) :=
    .seq (.expect trivial) <| .cond (.eat trivial) hc.expr.any .pure
  intro input s
  refine ((hbody input _).node fun cs _ _ => orderly_of_plain rfl cs).mono ?_
  rintro _ _ ⟨cs, _, rfl, hcs⟩
  refine ⟨(sole_branch hcs (formed_of_plain rfl cs)).neat, ?_⟩
  rintro _ ⟨⟩
  exact .inr rfl

theorem guardable_propertyRest : GuardableSince fun since => propertyRest call since := by
  have hmore : Heads (fun t => t.isKind .propertyElement = true)
      (whileEating .comma (propertyElement call)) :=
    .repeating (.cond (.of_fronts .eat) (.seq (heads_propertyElement hc) <| .of_fronts .pure)
      (.of_fronts .pure))
  have hrest : Heads (fun t => t.isKind .propertyElement = true) (do
      commaSeparated (propertyElement call); expectEnd) :=
    .seq (.seq (heads_propertyElement hc) hmore) <| .of_fronts fronts_expectEnd
  refine guardable_wrap_headed (fun _ _ _ h => h) (fun _ _ h => ⟨trivial, h⟩) fun input ts s b _ => ?_
  have hbody : Heads (fun t => t.isKind .propertyElement = true) (do
      if !(← check .varName) then type call
      commaSeparated (propertyElement call); expectEnd) :=
    .cond (.of_fronts (.of_after_eq fun _ _ => rfl)) (.seq (.of_fronts (fronts_type hc)) hrest)
      hrest
  exact hbody input _

/-- Constants start with their `constKw`, behind what stands in front of them. -/
theorem guardable_constRest :
    Since (fun input ts s => Front input anyLeaf ts ∧ input.kind? s.position = some .constKw)
      (fun input ts s => Guardable input ts s) fun since => wrap since .classConstDecl (do
        bump
        if (← atTypeStart) && (← peekAt 1) != some .assign then type call
        commaSeparated (constElement call)
        expectEnd) := by
  refine guardable_wrap_headed (fun _ _ _ h => h.1) (fun _ _ h => ⟨trivial, h⟩)
    fun input ts s b h => ?_
  have hseen : input.kind? ({ s with builder := b } : State).position = some .constKw := h.2
  have hrest : Grows anyLeaf (do
      if (← atTypeStart) && (← peekAt 1) != some .assign then type call
      commaSeparated (constElement call)
      expectEnd) :=
    .bind fronts_atTypeStart.grows fun _ => .optional .peekAt (grows_type hc) <|
      .seq (.commaSeparated trivial (grows_constElement hc)) .expectEnd
  refine (Adds.bump_led hseen (by decide)).bind (hrest input _) fun ts us _ h1 h2 => ?_
  exact ⟨neat_append.mpr ⟨h1.1, h2⟩, headed_of_led (led_append h1.2)⟩

theorem guardable_modifiedMember : GuardableSince fun since => modifiedMember call since := by
  refine .bind (.of_after_eq fun _ _ => rfl) fun _ => .seq fronts_modifiers ?_
  refine Since.peek fun kind => ?_
  split
  · exact guardable_constRest hc
  · exact Since.of_pre (GuardableSince.wrap rfl (grows_functionRest hc)) fun _ _ _ h => h.1
  · exact Since.of_pre (guardable_propertyRest hc) fun _ _ _ h => h.1
  · refine Since.of_pre ?_ fun _ _ _ h => h.1
    refine GuardableSince.bind fronts_atTypeStart fun _ => ?_
    exact Since.ite (guardable_propertyRest hc) GuardableSince.unexpected

theorem guardable_classMember (input : Input) (s : State) :
    Adds input (Guardable input) (classMember call) s := by
  refine GuardableSince.adds ?_ input s
  refine .seq (fronts_attributeGroups hc) <| .bind (.of_after_eq fun _ _ => rfl) fun kind => ?_
  split
  · exact .wrap rfl grows_traitUseRest
  · refine .wrap rfl (.seq .bump <| .seq .expectMemberName ?_)
    exact .cond (.eat trivial) (.seq hc.expr.any .expectEnd) .expectEnd
  · exact guardable_modifiedMember hc

theorem grows_classBody : GrowsNode (classBody call) := by
  refine PairGrows.node .blockBegin .blockEnd (fun _ _ h => ⟨h, trivial⟩) ?_
  refine .seq (.expect (by decide)) <| .seq (Grows.of_noLeaf ?_) ?_
  · refine .repeating (.bind .check fun _ => .cond .atEnd .pure ?_)
    exact .seq (grows_guarded (guardable_classMember hc)).grows .pure
  · exact .of_grows (.expect (by decide))

theorem grows_typeDeclRest (kind : NodeKind) : Grows anyLeaf (typeDeclRest call kind) := by
  refine .seq .bump <| .seq (.expect trivial) ?_
  have hrest : Grows anyLeaf (do inheritance; classBody call) :=
    .seq grows_inheritance (grows_classBody hc).grows
  exact .ite (.seq (grows_colonType hc rfl) hrest) hrest

omit hc in
theorem plain_of_declarationKind? {token : TokenKind} (h : declarationKind? token = some kind) :
    plain kind = true := by
  unfold declarationKind? at h
  split at h <;> cases h <;> rfl

theorem guardable_declaration (input : Input) (s : State) :
    Adds input (Guardable input) (declaration call) s := by
  refine GuardableSince.adds ?_ input s
  refine .seq (fronts_attributeGroups hc) <| .seq fronts_modifiers ?_
  refine .bind (.of_after_eq fun _ _ => rfl) fun token => ?_
  split
  · exact .wrap rfl (grows_functionRest hc)
  · next kind _ hkind =>
    obtain ⟨token, -, htoken⟩ := Option.bind_eq_some_iff.mp hkind
    exact .wrap (plain_of_declarationKind? htoken) (grows_typeDeclRest hc kind)
  · exact .unexpected

/-! ## Expressions -/

theorem grows_argument : Grows operandLeaf (argument call) := by
  refine .bind .peek fun _ => .cond .peekAt (.node rfl ?_) hc.expr
  exact .seq .bump <| .seq .bump hc.expr.any

theorem grows_arguments : Grows A (arguments call) := by
  refine .node rfl (.seq (.expect trivial) <| .bind .check fun _ => ?_)
  exact .optional .peekAt .bump <| .seq (.itemsUntil trivial (grows_argument hc).any) <|
    .expect trivial

theorem grows_arrayElement : Grows A (arrayElement call) :=
  .node rfl (.seq hc.expr.any <| .cond (.eat trivial) hc.expr.any .pure)

theorem grows_arrayElements (close : TokenKind) : Grows anyLeaf (arrayElements call close) := by
  refine .repeating (.bind .check fun _ => .cond .atEnd .pure ?_)
  refine .cond (.eat trivial) .pure ?_
  exact .seq (grows_arrayElement hc) <| .eat trivial

theorem one_parenthesised : GrowsOne (parenthesised call) :=
  .node rfl (.seq .bump <| .seq hc.expr.any <| .expect trivial)

theorem one_newExpr : GrowsOne (newExpr call) := by
  refine .node rfl (.seq .bump <| .cond .check (.node rfl ?_) ?_)
  · have hrest : Grows anyLeaf (do inheritance; classBody call) :=
      .seq grows_inheritance (grows_classBody hc).grows
    exact .seq .bump <| .cond .check (.seq hc.arguments hrest) hrest
  · have hrest : Grows anyLeaf (do if ← check .parenBegin then call .arguments) :=
      .cond .check hc.arguments .pure
    refine .bind .peek fun _ => ?_
    split
    · exact .seq .bump hrest
    · exact .seq .bump hrest
    · exact .seq .bump hrest
    · exact .seq (one_parenthesised hc).grows hrest
    · exact .seq (.expect trivial) hrest

theorem grows_armConditions : Grows anyLeaf (armConditions call) := by
  refine .seq hc.expr.any <| .repeating (.cond (.eat trivial) ?_ .pure)
  exact .cond .check .pure (.seq hc.expr.any .pure)

theorem grows_matchArm : Grows A (matchArm call) :=
  .node rfl (.optional (.eat trivial) (grows_armConditions hc) <| .seq (.expect trivial)
    hc.expr.any)

theorem one_matchExpr : GrowsOne (matchExpr call) :=
  .node rfl (.seq .bump <| .seq hc.condition <| .seq (.expect trivial) <|
    .seq (.itemsUntil trivial (grows_matchArm hc)) <| .expect trivial)

end

/-! ### Operands -/

/-- An operand is one tree.  It may be missing, but not in front of an infix operator. -/
def Operand (input : Input) (ts : List Tree) (s : State) : Prop :=
  ts.length = 1 ∨ ts = [] ∧ ∀ kind, input.kind? s.position = some kind → Power.ofInfix? kind = none

/-- Well-formed trees that are an operand, where one is asked for. -/
structure Held (strict : Prop) (A : TokenKind → Prop) (input : Input) (ts : List Tree) (s : State) :
    Prop where
  neat : Neat input A ts
  operand : strict → Operand input ts s

/-- The parse adds an operand, where one is asked for. -/
def Supplies {α : Type} (strict : Prop) (A : TokenKind → Prop) (p : Parse α) : Prop :=
  Meets (fun input _ => Held strict A input) p

section Operands

variable {strict : Prop} {input : Input} {s : State}

variable {α : Type} {p : Parse α} {kind : NodeKind}

theorem Supplies.grows (hp : Supplies strict A p) : Grows A p :=
  fun input s => (hp input s).mono fun _ _ h => h.neat

/-- `Supplies` no operand where none is asked. -/
theorem Grows.supplies (hp : Grows A p) : Supplies False A p :=
  fun input s => (hp input s).mono fun _ _ h => ⟨h, False.elim⟩

theorem held_sign {t : Tree} {kind : TokenKind} (ht : t.IsSign input.kind? kind) (hA : A kind) :
    Held strict A input [t] s := ⟨neat_sign ht hA, fun _ => .inl rfl⟩

theorem held_branch {cs : List Tree} (h : Sole input [.branch kind cs]) :
    Held strict A input [.branch kind cs] s := ⟨h.neat, fun _ => .inl rfl⟩

theorem Held.cutShort {ts : List Tree} (h : Held strict A input ts s) :
    Held strict A input ts { s with cutShort := true } := ⟨h.neat, fun hs => h.operand hs⟩

theorem GrowsOne.supplies {p : Parse Unit} (hp : GrowsOne p) : Supplies strict A p := by
  intro input s
  refine (hp input s).mono ?_
  rintro _ _ ⟨kind, cs, rfl, h⟩
  exact held_branch h

theorem Supplies.since (hp : Supplies strict A p) :
    Since (fun _ ts _ => ts = []) (Held strict A) fun _ => p :=
  .of_adds fun input _ s hts => hts ▸ hp input s

theorem Supplies.marker {p : Nat → Parse α} (hp : Since (fun _ ts _ => ts = []) (Held strict A) p) :
    Supplies strict A (Grammar.marker >>= p) := fun _ _ => Adds.marker hp rfl

/-- `wrap` makes an operand of what was added since the marker. -/
theorem Since.wrap_held {P : Input → Outcomes} {body : Parse Unit} {B : TokenKind → Prop}
    (hkind : plain kind = true) (hP : ∀ input ts s, P input ts s → Neat input B ts)
    (hbody : Grows anyLeaf body) :
    Since P (Held strict A) fun since => Grammar.wrap since kind body := by
  refine (Since.wrap_plain hkind hP hbody).mono ?_
  rintro input _ s ⟨cs, rfl, hcs⟩
  exact held_branch (sole_branch hcs (formed_of_plain hkind cs))

end Operands

variable {strict : Prop}

theorem adds_closureUse {input : Input} {s : State}
    (hseen : input.kind? s.position = some .useKw) :
    Adds input (fun more _ => Neat input A more) closureUse s := by
  have hrest : Grows anyLeaf (do
      expect .parenBegin
      itemsUntil .parenEnd do
        skip .ampersand
        expect .varName
      expect .parenEnd) :=
    .seq (.expect trivial) <| .seq (.itemsUntil trivial (.seq (.skip trivial) <| .expect trivial))
      <| .expect trivial
  exact (Adds.led_bump rfl hseen (by decide) hrest).mono fun _ _ h => h.1.neat

section

variable (hc : RulesGrow call)
include hc

/-- `closure` makes one node of a function, with what stands in front of it. -/
theorem since_closure :
    Since (fun input ts _ => Neat input operandLeaf ts) (Held strict A)
      fun since => closure call since := by
  refine .seq (GrowsSince.of_grows (.skip ⟨by decide, by decide⟩)) ?_
  refine .bind (GrowsSince.of_grows .check) fun _ => ?_
  refine .ite (.wrap_held rfl (fun _ _ _ h => h) ?_) (.wrap_held rfl (fun _ _ _ h => h) ?_)
  · exact .seq .bump <| .seq (.skip trivial) <| .seq (grows_paramList hc) <|
      .seq (grows_returnType hc) <| .seq (.expect trivial) (hc.atLeast _).any
  · have hrest : Grows anyLeaf (do returnType call; call .block) :=
      .seq (grows_returnType hc) hc.block.grows
    have huse : Grows anyLeaf (do
        if ← check .useKw then closureUse
        returnType call; call .block) :=
      Meets.ifCheck (fun _ _ hseen => (adds_closureUse hseen).then_grows fun _ => hrest) hrest
    exact .seq (.expect trivial) <| .seq (.skip trivial) <| .seq (grows_paramList hc) huse

theorem one_dynamicName : GrowsOne (dynamicName call) := by
  refine .node rfl (.seq .bump <| .cond (.eat trivial) ?_ ?_)
  · exact .seq hc.expr.any <| .expect trivial
  · exact hc.primary.any

variable {input : Input} {s : State} {kind : TokenKind} {power : Power} {ts : List Tree}

omit hc in
/-- `reservedPrimary` passes a symbol that is no parenthesis; and if it passes none, that is no
operator. -/
theorem adds_reservedPrimary (hseen : input.kind? s.position = some kind)
    (hkind : kind ≠ .parenBegin) :
    Adds input (Held True operandLeaf input) (reservedPrimary kind) s := by
  have hpass (s : State) (hseen : input.kind? s.position = some kind) (hne : kind ≠ .parenEnd) :
      Adds input (Held True operandLeaf input) bump s := by
    refine (Adds.bump_seen hseen).mono ?_
    rintro _ _ ⟨t, rfl, ht⟩
    exact held_sign ht ⟨hkind, hne⟩
  refine Adds.look rfl ?_
  split
  · next hword =>
    refine hpass s hseen ?_
    rintro rfl
    simp [TokenKind.isKeyword, TokenKind.word?, TokenKind.reserved] at hword
  · have hseen' : input.kind? (after (unexpected .expression) input s).position = some kind := hseen
    have hreport : Adds input (fun more _ => more = []) (unexpected .expression) s :=
      Adds.look rfl (Adds.report.mono fun _ _ h => h.1)
    refine hreport.bind (R := Held True operandLeaf input) ?_ ?_
    · have hmissing (hnone : Power.ofInfix? kind = none) : Adds input (Held True operandLeaf input)
          (pure ()) (after (unexpected .expression) input s) := by
        refine Adds.imp Adds.pure ?_
        rintro _ rfl
        exact ⟨neat_nil, fun _ => .inr ⟨rfl, fun k hk =>
          Option.some.inj (hk.symm.trans hseen') ▸ hnone⟩⟩
      split
      · exact hmissing rfl
      · exact hmissing rfl
      · exact hmissing rfl
      · exact hmissing rfl
      · exact hmissing rfl
      · next hne _ _ _ => exact hpass _ hseen' hne
    · rintro _ us _ rfl h
      exact h

theorem supplies_primary : Supplies True operandLeaf (primary call) := by
  intro input s
  refine Adds.look rfl ?_
  rw [answer_peek]
  cases hseen : input.kind? s.position with
  | none =>
    refine Adds.look rfl (Adds.imp Adds.report ?_)
    rintro _ ⟨rfl, -⟩
    refine ⟨neat_nil, fun _ => .inr ⟨rfl, fun kind hkind => ?_⟩⟩
    rw [show input.kind? (after (report _) input s).position = none from hseen] at hkind
    cases hkind
  | some kind =>
    refine Adds.look rfl ?_
    have hliteral : ∀ k, operandLeaf k → some kind = some k →
        Adds input (Held True operandLeaf input) bump s := by
      intro k hk heq
      refine (Adds.bump_seen (hseen.trans heq)).mono ?_
      rintro _ _ ⟨t, rfl, ht⟩
      exact held_sign ht hk
    have hclosure : Supplies True operandLeaf (do
        let since ← marker; attributeGroups call; closure call since) :=
      fun _ _ => Adds.marker (.seq (GrowsSince.of_grows (grows_attributeGroups hc)) <|
        since_closure hc) neat_nil
    split
    · exact hliteral _ ⟨by decide, by decide⟩ rfl
    · exact hliteral _ ⟨by decide, by decide⟩ rfl
    · exact hliteral _ ⟨by decide, by decide⟩ rfl
    · exact hliteral _ ⟨by decide, by decide⟩ rfl
    · exact hliteral _ ⟨by decide, by decide⟩ rfl
    · exact (one_dynamicName hc).supplies input s
    · exact (one_parenthesised hc).supplies input s
    · refine (GrowsOne.node rfl ?_).supplies input s
      exact .seq .bump <| .seq (grows_arrayElements hc _) <| .expect trivial
    · refine (GrowsOne.node rfl ?_).supplies input s
      exact .seq .bump <| .seq (.expect trivial) <| .seq (grows_arrayElements hc _) <|
        .expect trivial
    · exact (one_newExpr hc).supplies input s
    · exact (one_matchExpr hc).supplies input s
    · exact hclosure input s
    · exact hclosure input s
    · exact hclosure input s
    · split
      · refine (GrowsOne.node rfl ?_).supplies input s
        exact .seq .bump <| .seq .bump <| .seq (grows_arrayElements hc _) <| .expect trivial
      · exact adds_reservedPrimary hseen (by decide)
    · split
      · exact Adds.marker (since_closure hc) neat_nil
      · exact adds_reservedPrimary hseen (by decide)
    · next hparen _ _ _ _ _ _ _ _ _ => exact adds_reservedPrimary hseen hparen

theorem grows_memberName : Grows anyLeaf (memberName call) := by
  refine .bind .peek fun _ => ?_
  split
  · exact .bump
  · exact .node rfl (.seq .bump <| .seq hc.expr.any <| .expect trivial)
  · exact hc.primary.any
  · exact .expectMemberName

theorem since_memberAccess {plain called : NodeKind}
    (hplain : Grammar.plain plain = true) (hcalled : Grammar.plain called = true) :
    Since (fun input ts _ => Neat input A ts) (Held strict A)
      fun since => memberAccess call since plain called := by
  refine .bind (GrowsSince.of_grows grows_callAhead) fun _ => .ite ?_ ?_
  · refine .wrap_held hcalled (fun _ _ _ h => h) ?_
    exact .seq .bump <| .seq (grows_memberName hc) hc.arguments
  · refine .wrap_held hplain (fun _ _ _ h => h) ?_
    exact .seq .bump <| grows_memberName hc

omit hc in
/-- A postfix operator ends its node. -/
theorem since_postfixSign (hkind : kind ≠ .openTagWithEcho) :
    Since (fun input ts s => Held strict A input ts s ∧ input.kind? s.position = some kind)
      (Held strict A) fun since => wrap since .postfixExpr bump := by
  refine Since.mono (Since.wrap (R := fun input cs => Neat input anyLeaf cs ∧
    Formed input.kind? .postfixExpr cs) (fun input ts s b h => ?_) fun _ _ _ => ?_) ?_
  · have hseen : input.kind? ({ s with builder := b } : State).position = some kind := h.2
    refine (Adds.bump_seen hseen).mono ?_
    rintro _ _ ⟨t, rfl, ht⟩
    refine ⟨neat_append.mpr ⟨h.1.neat.mono fun _ _ => trivial, neat_sign ht trivial⟩, ?_⟩
    intro u hu
    obtain rfl : t = u := by simpa using hu
    exact fun htag => hkind (ht.unique htag)
  · trivial
  · rintro input _ s ⟨cs, rfl, hcs, hformed⟩
    exact held_branch (sole_branch hcs hformed)

theorem since_postfixStep :
    Since (Held strict A) (Held strict A) fun since => postfixStep call since := by
  refine .peek fun kind => ?_
  split
  · exact .seq (.wrap_held rfl (fun _ _ _ h => h.1.neat) hc.arguments) .pure
  · exact .seq (.of_pre (since_memberAccess hc rfl rfl) fun _ _ _ h => h.1.neat) .pure
  · exact .seq (.of_pre (since_memberAccess hc rfl rfl) fun _ _ _ h => h.1.neat) .pure
  · exact .seq (.of_pre (since_memberAccess hc rfl rfl) fun _ _ _ h => h.1.neat) .pure
  · refine .seq (.wrap_held rfl (fun _ _ _ h => h.1.neat) ?_) .pure
    exact .seq .bump <| .optional .check hc.expr.any <| .expect trivial
  · exact .seq (since_postfixSign (by decide)) .pure
  · exact .seq (since_postfixSign (by decide)) .pure
  · exact .of_pre .pure fun _ _ _ h => h.1

theorem supplies_operand (hprimary : Supplies strict A (call .primary)) :
    Supplies strict A (operand call) :=
  .marker (.seq hprimary.since <| .repeating (fun _ _ _ h => h.cutShort) (since_postfixStep hc))

theorem grows_operand : Grows operandLeaf (operand call) :=
  (supplies_operand hc hc.primary.supplies).grows

theorem one_leading {kind : NodeKind} (hkind : plain kind = true) :
    GrowsOne (leading call kind power) := .node hkind (.seq .bump (hc.atLeast power).any)

theorem supplies_unary (hprimary : Supplies strict A (call .primary)) :
    Supplies strict A (unary call) := by
  refine fun input s => Adds.look rfl ?_
  split
  case h_11 => exact (GrowsOne.node rfl (.seq .bump hc.unary.any)).supplies input s
  case h_15 =>
    refine (GrowsOne.node rfl (.seq .bump ?_)).supplies input s
    refine .cond grows_atExpressionEnd ?_ .pure
    exact .seq (hc.atLeast _).any <| .cond (.eat trivial) (hc.atLeast _).any .pure
  case h_16 =>
    refine Supplies.marker (.seq (supplies_operand hc hprimary).since ?_) input s
    refine Since.ifLook (fun _ _ => rfl) ?_ .pure
    refine .wrap_held rfl (fun _ _ _ h => h.1.neat) ?_
    exact .seq .bump (hc.atLeast _).any
  all_goals exact (one_leading hc rfl).supplies input s

omit hc in
/-- `infixRest` adds an operator and what follows it. -/
theorem adds_infixRest (hA : A .colon) (hcall : ∀ power, Grows A (call (.expression power)))
    (hseen : input.kind? s.position = some kind) :
    Adds input (fun more _ => ∃ sign rest, more = sign :: rest ∧ sign.IsSign input.kind? kind ∧
      Neat input A rest) (infixRest call power) s := by
  refine (Adds.bump_seen hseen).bind (R := fun more _ => Neat input A more) ?_ ?_
  · split
    · have hlast : Grows A (call.above .ternary) := hcall _
      refine Grows.bind (.eat hA) (fun _ => .ite ?_ hlast) input _
      exact .seq (hcall _) <| .seq (.expect hA) hlast
    · exact hcall _ input _
    · exact hcall _ input _
    · exact hcall _ input _
  · rintro _ rest _ ⟨sign, rfl, hsign⟩ h
    exact ⟨sign, rest, rfl, hsign, h⟩

omit hc in
/-- Of an infix node, `Orderly` and `Formed` look only at the second child. -/
theorem orderly_formed_infixNode {kindOf : Nat → Option TokenKind} {cs : List Tree} (power : Power)
    (h : ∀ t, cs[1]? = some t → ¬ t.IsSign kindOf .openTagWithEcho) :
    Orderly kindOf (infixKind power) cs ∧ Formed kindOf (infixKind power) cs := by
  cases power
  case ternary => exact ⟨trivial, trivial⟩
  all_goals exact ⟨trivial, h⟩

omit hc in
/-- The rules are so close to their end that operands and expressions add no leaf. -/
def Sparse (call : Rules) : Prop :=
  Grows noLeaf (call .unary) ∧ ∀ power, Grows noLeaf (call (.expression power))

/-- `infixStep` makes a node whose second child is its operator, or there is no tag among them. -/
theorem since_infixStep (least : Nat)
    (hcalls : strict ∨ (∀ kind, ¬ A kind) ∧ Sparse call) :
    Since (Held strict A) (Held strict A) fun since => infixStep call since least := by
  refine .peek fun kind => ?_
  split
  · next power hpower =>
    obtain ⟨kind, rfl, hinfix⟩ := Option.bind_eq_some_iff.mp hpower
    have hkind : kind ≠ .openTagWithEcho := by
      rintro rfl
      cases hinfix
    refine .ite (.of_pre .pure fun _ _ _ h => h.1) (.bind (M := Held strict A) ?_ fun _ => .pure)
    refine Since.mono (Since.wrap (R := fun input cs => Neat input anyLeaf cs ∧
      ∀ t, cs[1]? = some t → ¬ t.IsSign input.kind? .openTagWithEcho) ?_ ?_) ?_
    · rintro input ts s b ⟨hts, hseen⟩
      have hseen' : input.kind? ({ s with builder := b } : State).position = some kind := hseen
      rcases hcalls with hstrict | ⟨hnone, hsparse⟩
      · -- the left operand is one tree
        refine (adds_infixRest (A := anyLeaf) trivial (fun p => (hc.expression p).any) hseen').mono ?_
        rintro _ _ ⟨sign, rest, rfl, hsign, hrest⟩
        have hsign' : Neat input anyLeaf (sign :: rest) :=
          neat_append.mpr ⟨neat_sign hsign trivial, hrest⟩
        refine ⟨neat_append.mpr ⟨hts.neat.mono fun _ _ => trivial, hsign'⟩, fun t ht htag => ?_⟩
        rcases hts.operand hstrict with hone | ⟨-, hnone⟩
        · obtain ⟨operand, rfl⟩ := length_eq_one_iff.mp hone
          obtain rfl : sign = t := by simpa using ht
          exact hkind (hsign.unique htag)
        · rw [hnone kind hseen] at hinfix
          cases hinfix
      · -- no leaf but the operator is added
        have hcall (p : Nat) : Grows (· ≠ .openTagWithEcho) (call (.expression p)) :=
          (hsparse.2 p).of_noLeaf
        refine (adds_infixRest (by decide) hcall hseen').mono ?_
        rintro _ _ ⟨sign, rest, rfl, hsign, hrest⟩
        have hall : Neat input (· ≠ .openTagWithEcho) (ts ++ ([sign] ++ rest)) :=
          neat_append.mpr ⟨hts.neat.mono fun k hk => (hnone k hk).elim,
            neat_append.mpr ⟨neat_sign hsign hkind, hrest⟩⟩
        refine ⟨hall.mono fun _ _ => trivial, fun t ht => ?_⟩
        exact hall.bare.not_isSign (mem_of_getElem? ht)
    · exact fun input cs h => (orderly_formed_infixNode power h.2).1
    · rintro input _ s ⟨cs, rfl, hcs, hsecond⟩
      exact held_branch (sole_branch hcs (orderly_formed_infixNode power hsecond).2)
  · exact .of_pre .pure fun _ _ _ h => h.1

theorem grows_expression (hunary : Supplies strict A (call .unary))
    (hcalls : strict ∨ (∀ kind, ¬ A kind) ∧ Sparse call) (least : Nat) :
    Grows A (expression call least) :=
  Supplies.grows (.marker (.seq hunary.since <| .repeating (fun _ _ _ h => h.cutShort)
    (since_infixStep hc least hcalls)))

end

end Rules

end CodeLayout.Grammar
