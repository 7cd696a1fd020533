import CodeLayout.Proofs.Grammar.Clean
import CodeLayout.Proofs.Grammar.Lossless

/-!
# Declarations and expressions as whole trees

A rule adds whole trees where it reports nothing (`RulesForm`).  An expression adds no sign outside of
nodes then that could end a condition or the label of a case, and a list ends with its closing sign
(`EndsWith`).
-/

namespace CodeLayout

open List
open CodeLayout.Tree (Cut Whole braces labelEnds)

namespace Grammar

/-- The signs that end, enclose or divide the parts of a construct. -/
def outerSigns : List TokenKind :=
  [.parenEnd, .colon, .semiColon, .blockBegin, .blockEnd, .assign, .compoundAssign, .doubleArrow]

/-- The leaves that an expression may add outside of nodes: no sign of the construct around it. -/
abbrev innerLeaf (kind : TokenKind) : Prop := kind ∉ outerSigns

theorem innerLeaf.not_mem {kinds : List TokenKind} (hkinds : ∀ kind ∈ kinds, kind ∈ outerSigns)
    (kind : TokenKind) (h : innerLeaf kind) : kind ∉ kinds := fun hmem => h (hkinds kind hmem)

/-- What a rule adds. -/
def Rule.adds : Rule → Input → List Tree → Prop
  | statement | block | arguments | useClause => fun _ => One
  | expression _ | unary | primary => fun input => Bare input innerLeaf
  | intersection => fun input => Bare input anyLeaf

/-- All rules add whole trees. -/
def RulesForm (call : Rules) : Prop := ∀ rule input s, Forms input (rule.adds input) (call rule) s

section Rules

variable {call : Rules} {A : TokenKind → Prop}

namespace RulesForm

theorem statement (hc : RulesForm call) : YieldsNode (call .statement) := hc .statement

section

variable (hc : RulesForm call)
include hc

theorem block : YieldsNode (call .block) := hc .block

theorem arguments : Yields A (call .arguments) := YieldsNode.yields (hc .arguments)

theorem useClause : Yields A (call .useClause) := YieldsNode.yields (hc .useClause)

theorem primary : Yields innerLeaf (call .primary) := hc .primary

omit hc in
theorem unary (hc : RulesForm call) : Yields innerLeaf (call .unary) := hc .unary

theorem intersection : Yields anyLeaf (call .intersection) := hc .intersection

omit hc in
theorem expr (hc : RulesForm call) : Yields innerLeaf call.expr := hc (.expression _)

theorem atLeast (power : Power) : Yields innerLeaf (call.atLeast power) := hc (.expression _)

theorem above (power : Power) : Yields innerLeaf (call.above power) := hc (.expression _)

end

end RulesForm

/-- `condition` adds its parentheses, and an expression between them. -/
theorem forms_condition (hc : RulesForm call) (input : Input) (s : State) :
    Forms input (fun ts => ∃ opening us closing, ts = [opening] ++ (us ++ [closing]) ∧
      opening.IsSign input.kind? .parenBegin ∧ Bare input innerLeaf us ∧
      closing.IsSign input.kind? .parenEnd) call.condition s := by
  have hrest : ∀ s, Forms input (fun ts => ∃ us closing, ts = us ++ [closing] ∧
      Bare input innerLeaf us ∧ closing.IsSign input.kind? .parenEnd)
      (do call.expr; expect .parenEnd) s := by
    refine fun s => (hc.expr input s).bind Forms.expect ?_
    rintro us _ hus ⟨closing, rfl, hclosing⟩
    exact ⟨us, closing, rfl, hus, hclosing⟩
  refine Forms.expect.bind (hrest _) ?_
  rintro _ _ ⟨opening, rfl, hopening⟩ ⟨us, closing, rfl, hus, hclosing⟩
  exact ⟨opening, us, closing, rfl, hopening, hus, hclosing⟩

/-! ## Names and values -/

variable {input : Input} {ts : List Tree} {s : State} {kind : TokenKind}

/-- Among trees that are `Bare`, none is a sign of a kind not in the set. -/
theorem Bare.not_isOneOf {kinds : List TokenKind} (h : Bare input A ts)
    (hkinds : ∀ kind ∈ kinds, ¬ A kind) :
    ∀ t ∈ ts, ¬ t.IsOneOf input.kind? kinds := by
  rintro t ht ⟨kind, hmem, hsign⟩
  have hbare : Bare input (· ≠ kind) ts := h.mono fun k hk heq => hkinds kind hmem (heq ▸ hk)
  exact hbare.not_isSign ht hsign

/-- One of the trees at most is a sign of the construct. -/
def SignedOnce (input : Input) (ts : List Tree) : Prop :=
  ∃ front sign behind, ts = front ++ (sign ++ behind) ∧ sign.length ≤ 1 ∧
    Bare input innerLeaf (front ++ behind)

theorem SignedOnce.not_isOneOf (h : SignedOnce input ts) :
    ∃ front sign behind, ts = front ++ (sign ++ behind) ∧ sign.length ≤ 1 ∧
      ∀ t ∈ front ++ behind, ¬ t.IsOneOf input.kind? Tree.bindings := by
  obtain ⟨front, sign, behind, rfl, hsign, hbare⟩ := h
  exact ⟨front, sign, behind, rfl, hsign, hbare.not_isOneOf (by decide)⟩

/-- `SignedOnce` with trees without a sign that come first. -/
theorem SignedOnce.prepend {us : List Tree} (hts : Bare input innerLeaf ts)
    (hus : SignedOnce input us) : SignedOnce input (ts ++ us) := by
  obtain ⟨front, sign, behind, rfl, hsign, hbare⟩ := hus
  refine ⟨ts ++ front, sign, behind, by simp, hsign, ?_⟩
  rw [append_assoc]
  exact bare_append.mpr ⟨hts, hbare⟩

/-- `SignedOnce` by a symbol of any kind, or none, and then trees without a sign. -/
theorem Forms.signed {α : Type} {p : Parse α} {f : α → Parse Unit}
    (hp : Forms input (fun ts => ts.length ≤ 1) p s) (hf : ∀ a, Yields innerLeaf (f a)) :
    Forms input (SignedOnce input) (p >>= f) s := by
  refine hp.bind (hf _ input _) fun ts us hts hus => ?_
  exact ⟨[], ts, us, rfl, hts, hus⟩

/-- `eat` adds one leaf at most. -/
theorem Forms.eat : Forms input (fun ts => ts.length ≤ 1) (eat kind) s := by
  refine .look rfl (.ite (fun _ => ?_) fun _ => ?_)
  · refine Forms.bump.bind (Forms.of_after_eq rfl) ?_
    rintro ts _ ⟨hts, -⟩ rfl
    rwa [append_nil]
  · exact (Forms.of_after_eq rfl).mono fun ts h => h ▸ Nat.zero_le 1

theorem Forms.expect_one : Forms input (fun ts => ts.length ≤ 1) (Grammar.expect kind) s := by
  refine Forms.expect.mono ?_
  rintro _ ⟨t, rfl, -⟩
  exact Nat.le_refl 1

/-- `SignedOnce` for a value that may follow a sign. -/
theorem forms_optionalValue (hc : RulesForm call) :
    Forms input (SignedOnce input) (do if ← eat kind then call.expr) s :=
  Forms.eat.signed fun _ => .ite hc.expr .pure

/-- A reserved word (`isKeyword`) is no sign of a construct. -/
theorem innerLeaf_of_isKeyword (h : kind.isKeyword = true) : innerLeaf kind := by
  intro hmem
  have hsigns : ∀ k ∈ outerSigns, k.isKeyword = false := by decide
  rw [hsigns kind hmem] at h
  cases h

theorem yields_expectMemberName : Yields innerLeaf expectMemberName := by
  intro input s
  have hname : Forms input (Bare input innerLeaf) (expect .name) s :=
    Yields.expect (A := innerLeaf) (by decide) input s
  refine .look rfl ?_
  rw [answer_peek]
  cases hseen : input.kind? s.position with
  | none => exact hname
  | some kind =>
    exact .ite (fun hword => .bump_bare hseen (innerLeaf_of_isKeyword hword)) fun _ => hname

/-! ## Lists -/

/-- Kinds of nodes that are lists with a closing sign. -/
def isList : NodeKind → Bool
  | .groupUseList | .paramList | .argList | .arrayLiteral | .listExpr | .closureUse
  | .attributeGroup => true
  | _ => false

theorem whole_of_list {kindOf : Nat → Option TokenKind} {kind : NodeKind} {cs : List Tree}
    (hkind : isList kind = true)
    (h : ∃ front closing, cs = front ++ [closing] ∧ closing.IsOneOf kindOf Tree.listEnds) :
    Whole kindOf kind cs := by
  cases kind <;> first | exact h | exact absurd hkind (by decide)

/-- The parse adds a sign of the kind at last. -/
def EndsWith (close : TokenKind) (p : Parse Unit) : Prop := ∀ input s,
  Forms input (fun ts => ∃ front t, ts = front ++ [t] ∧ t.IsSign input.kind? close) p s

namespace EndsWith

variable {α : Type} {close : TokenKind}

theorem expect : EndsWith close (expect close) := by
  refine fun input s => Forms.expect.mono ?_
  rintro ts ⟨t, rfl, ht⟩
  exact ⟨[], t, rfl, ht⟩

theorem bind {p : Parse α} {f : α → Parse Unit} (hp : Yields anyLeaf p)
    (hf : ∀ a, EndsWith close (f a)) : EndsWith close (p >>= f) := by
  refine fun input s => (hp input s).bind (hf _ input _) ?_
  rintro ts _ - ⟨front, t, rfl, ht⟩
  exact ⟨ts ++ front, t, by rw [append_assoc], ht⟩

theorem seq {p : Parse α} {q : Parse Unit} (hp : Yields anyLeaf p) (hq : EndsWith close q) :
    EndsWith close (p >>= fun _ => q) := bind hp fun _ => hq

theorem ite {c : Prop} [Decidable c] {p q : Parse Unit} (hp : EndsWith close p)
    (hq : EndsWith close q) : EndsWith close (if c then p else q) :=
  fun input s => .ite (fun _ => hp input s) fun _ => hq input s

/-- A node that ends with its sign is a whole list. -/
theorem node (close : TokenKind) {kind : NodeKind} {body : Parse Unit} (hkind : isList kind = true)
    (hclose : close ∈ Tree.listEnds) (hbody : EndsWith close body) :
    YieldsNode (Grammar.node kind body) := by
  refine fun input _ => (hbody input _).node ?_
  rintro cs ⟨front, t, rfl, ht⟩
  exact whole_of_list hkind ⟨front, t, rfl, close, hclose, ht⟩

end EndsWith

/-! ## Parts that call no rule -/

variable {kind : NodeKind} {input : Input} {s : State} {α : Type} {p : Parse α} {ts us : List Tree}
  {power : Power} {kinds : List TokenKind} {R : List Tree → Prop} {t : Tree}

theorem yields_checkModifier : Yields A checkModifier := .of_after_eq fun _ _ => rfl

theorem yields_modifiers : Yields anyLeaf modifiers :=
  .repeating (.cond yields_checkModifier (.seq .bump .pure) .pure)

theorem yields_atTypeStart : Yields A atTypeStart := by
  refine .bind .peek fun kind => ?_
  split
  · exact .pure
  · exact .pure
  · exact .pure
  · exact .pure
  · exact .bind .peekAt fun _ => .pure
  · exact .pure

theorem yields_typeAtom : Yields anyLeaf typeAtom := .expectAny fun _ _ => trivial

theorem yields_intersectionAhead : Yields A intersectionAhead := by
  refine .cond .check (.bind .peekAt fun kind => ?_) .pure
  split <;> exact .pure

/-- `inheritanceClause` adds a word and the names behind it. -/
theorem yields_inheritanceClause {keyword : TokenKind} (hword : keyword ∈ Tree.inheritanceWords)
    (hkind : ∀ kindOf cs, (∃ word names, cs = word :: names ∧
      Tree.IsOneOf kindOf Tree.inheritanceWords word ∧
      ∀ t ∈ names, ¬ t.IsOneOf kindOf Tree.inheritanceWords) → Whole kindOf kind cs) :
    Yields A (inheritanceClause keyword kind) := by
  intro input s
  have hnames : Yields (· ∉ Tree.inheritanceWords) (commaSeparated (expect .name)) :=
    .commaSeparated (by decide) (.expect (by decide))
  refine .look rfl (.ite (fun hseen => ?_) fun _ => Yields.pure input s)
  have hbump := Forms.bump_seen (s := { s with builder := s.builder.start kind })
    (show input.kind? s.position = some keyword by simpa using hseen)
  refine (Forms.node (hbump.bind (hnames input _) ?_) (hkind _)).mono ?_
  · rintro _ names ⟨word, rfl, hsign⟩ hbare
    exact ⟨word, names, rfl, ⟨keyword, hword, hsign⟩, hbare.not_isOneOf fun _ hmem h => h hmem⟩
  · rintro _ ⟨t, rfl, hnode⟩
    exact forall_mem_singleton.mpr (.inl hnode)

theorem yields_inheritance : Yields A inheritance :=
  .seq (yields_inheritanceClause (by decide) fun _ _ h => h) <| yields_inheritanceClause (by decide)
    fun _ _ h => h

theorem yields_skipBraces (n depth : Nat) : Yields anyLeaf (skipBraces n depth) := by
  induction n generalizing depth with
  | zero => exact .cutOff
  | succ n ih =>
    refine .bind .peek fun kind => ?_
    split
    · exact .pure
    · exact .seq .bump <| ih _
    · exact .ite .pure (.seq .bump <| ih _)
    · exact .seq .bump <| ih _

/-- `traitUseBody`: the rules among traits stand between braces. -/
theorem forms_traitUseBody (hseen : input.kind? s.position = some .blockBegin) :
    Forms input One (node .traitUseBody (do
      bump
      skipBraces ((← read).symbols.size + 1) 1
      expect .blockEnd)) s := by
  have hrest : EndsWith .blockEnd (do
      skipBraces ((← read).symbols.size + 1) 1
      expect .blockEnd) :=
    .bind (.of_after_eq fun _ _ => rfl) fun _ => .seq (yields_skipBraces _ _) .expect
  have hbump := Forms.bump_seen (s := { s with builder := s.builder.start .traitUseBody }) hseen
  refine Forms.node (hbump.bind (hrest input _) ?_) fun cs h => h
  rintro _ _ ⟨opening, rfl, hopening⟩ ⟨rules, closing, rfl, hclosing⟩
  exact ⟨opening, rules, closing, rfl, hopening, hclosing⟩

theorem yields_traitUseRest : Yields anyLeaf traitUseRest := by
  refine .seq .bump <| .seq (.commaSeparated trivial (.expect trivial)) ?_
  intro input s
  refine .look rfl (.ite (fun hseen => ?_) fun _ => Yields.expectEnd input s)
  refine (forms_traitUseBody (by simpa using hseen)).mono ?_
  rintro _ ⟨t, rfl, hnode⟩
  exact forall_mem_singleton.mpr (.inl hnode)

theorem yieldsNode_closureUse : YieldsNode closureUse := by
  refine EndsWith.node .parenEnd rfl (by decide) (.seq .bump ?_)
  refine .seq (.expect trivial) ?_
  exact .seq (.itemsUntil trivial (.seq (.skip trivial) <| .expect trivial)) .expect

/-- `reservedPrimary` without a problem passes only a reserved word. -/
theorem forms_reservedPrimary {kind : TokenKind} (hseen : input.kind? s.position = some kind) :
    Forms input (Bare input innerLeaf) (reservedPrimary kind) s := by
  refine .look rfl (.ite (fun hword => ?_) fun _ => ?_)
  · refine .bump_bare hseen (innerLeaf_of_isKeyword ?_)
    exact (Bool.and_eq_true_iff.mp hword).1
  · -- any other word is reported, whatever is passed then
    refine .of_first .unexpected (.mono (Q := Bare input anyLeaf) ?_ fun _ _ => trivial)
    split
    · exact Yields.pure input _
    · exact Yields.pure input _
    · exact Yields.pure input _
    · exact Yields.pure input _
    · exact Yields.pure input _
    · exact Yields.bump input _

theorem yields_ahead {n : Nat} : Yields A (ahead n) := .of_after_eq fun _ _ => rfl

theorem yields_callAhead : Yields A callAhead := by
  refine .cond .peekAt ?_ (.bind .peekAt fun _ => .pure)
  exact .bind (.of_after_eq fun _ _ => rfl) fun _ => .bind yields_ahead fun _ => .pure

theorem yields_atExpressionEnd : Yields A atExpressionEnd :=
  .cond .atEnd .pure (.cond .checkAny .pure .closedHere)

theorem yieldsNode_jumpStmt : YieldsNode jumpStmt :=
  .node rfl (.seq .bump <| .seq (.skip trivial) .expectEnd)

theorem yieldsNode_globalStmt : YieldsNode globalStmt :=
  .node rfl (.seq .bump <| .seq (.commaSeparated trivial (.expect trivial)) .expectEnd)

theorem yields_useType : Yields anyLeaf useType := .cond .checkAny .bump .pure

/-! ## Declarations -/

section

variable (hc : RulesForm call)
include hc

theorem yields_attributeItem : Yields A (attributeItem call) :=
  .node rfl (.seq (.expect trivial) <| .cond .check hc.arguments .pure)

theorem yields_attributeGroups : Yields A (attributeGroups call) := by
  have hgroup : YieldsNode (node .attributeGroup do
      bump; itemsUntil .arrayEnd (attributeItem call); expect .arrayEnd) :=
    EndsWith.node .arrayEnd rfl (by decide) (.seq .bump <|
      .seq (.itemsUntil trivial (yields_attributeItem hc)) .expect)
  exact .repeating (.cond .check (.seq hgroup.yields .pure) .pure)

theorem yields_intersection : Yields anyLeaf (intersection call) := by
  refine .cond (.eat trivial) ?_ (.marker ?_)
  · exact .seq hc.intersection <| .expect trivial
  · refine .seq (.of_yields yields_typeAtom) ?_
    refine .bind (.of_yields yields_intersectionAhead) fun _ => .ite (.wrap rfl ?_) ?_
    · refine .repeating (.cond yields_intersectionAhead ?_ .pure)
      exact .seq .bump <| .seq yields_typeAtom .pure
    · exact .of_yields .pure

theorem yields_type : Yields anyLeaf (type call) := by
  refine .cond .check ?_ (.marker ?_)
  · exact .node rfl (.seq .bump yields_typeAtom)
  · refine .seq (.of_yields hc.intersection) ?_
    refine .bind (.of_yields .check) fun _ => .ite (.wrap rfl ?_) (.of_yields .pure)
    exact .whileEating trivial hc.intersection

theorem yields_colonType (hkind : free kind = true) : Yields A (colonType call kind) :=
  .cond .check (.node hkind (.seq .bump <| yields_type hc)) .pure

theorem yields_param : Yields A (param call) := by
  refine .node rfl (.seq (yields_attributeGroups hc) <| .seq yields_modifiers ?_)
  refine .bind yields_atTypeStart fun _ => ?_
  have hrest : Yields anyLeaf (do
      skip .ampersand; skip .ellipsis; expect .varName
      if ← eat .assign then call.expr) :=
    .seq (.skip trivial) <| .seq (.skip trivial) <| .seq (.expect trivial) <| .cond (.eat trivial)
      hc.expr.any .pure
  exact .ite (.seq (yields_type hc) hrest) hrest

theorem yieldsNode_paramList : YieldsNode (paramList call) := by
  refine EndsWith.node .parenEnd rfl (by decide) (.seq (.expect trivial) ?_)
  exact .seq (.itemsUntil trivial (yields_param hc)) .expect

theorem yields_returnType : Yields A (returnType call) := yields_colonType hc rfl

theorem yields_functionRest : Yields anyLeaf (functionRest call) :=
  .seq .bump <| .seq (.skip trivial) <| .seq yields_expectMemberName.any <|
    .seq (yieldsNode_paramList hc).yields <| .seq (yields_returnType hc) <|
    .cond .check hc.block.yields .expectEnd

theorem yields_constElement : Yields A (constElement call) := by
  have hnode : YieldsNode (constElement call) := by
    refine fun input s => Forms.node ?_ fun cs h => SignedOnce.not_isOneOf h
    refine (yields_expectMemberName input _).bind ?_ fun _ _ => SignedOnce.prepend
    exact Forms.expect_one.signed fun _ => hc.expr
  exact hnode.yields

theorem yields_propertyElement : Yields A (propertyElement call) := by
  have hnode : YieldsNode (propertyElement call) := by
    refine fun input s => Forms.node ?_ fun cs h => SignedOnce.not_isOneOf h
    have hname : Yields innerLeaf (expect .varName) := .expect (by decide)
    exact (hname input _).bind (forms_optionalValue hc) fun _ _ => SignedOnce.prepend
  exact hnode.yields

/-! ### Members -/

omit hc in
/-- The parse puts all that was added since a marker into one whole node. -/
def NodeSince {α : Type} (p : Nat → Parse α) : Prop := FormsSince (fun _ _ => True) (fun _ => One) p

omit hc in
theorem NodeSince.bind {β : Type} {f : Nat → α → Parse β} (hp : Yields anyLeaf p)
    (hf : ∀ a, NodeSince fun since => f since a) : NodeSince fun since => p >>= f since :=
  FormsSince.bind (.of_yields hp) hf

omit hc in
theorem NodeSince.seq {β : Type} {q : Nat → Parse β} (hp : Yields anyLeaf p) (hq : NodeSince q) :
    NodeSince fun since => p >>= fun _ => q since := NodeSince.bind hp fun _ => hq

omit hc in
theorem NodeSince.yields {p : Nat → Parse Unit} (hp : NodeSince p) : YieldsNode (marker >>= p) :=
  fun _ _ => Forms.marker hp trivial

theorem nodeSince_propertyRest : NodeSince fun since => propertyRest call since := by
  refine .wrap rfl (.bind .check fun _ => ?_)
  have hrest : Yields anyLeaf (do commaSeparated (propertyElement call); expectEnd) :=
    .seq (.commaSeparated trivial (yields_propertyElement hc)) .expectEnd
  exact .ite (.seq (yields_type hc) hrest) hrest

theorem nodeSince_modifiedMember : NodeSince fun since => modifiedMember call since := by
  refine .bind yields_checkModifier fun _ => .seq yields_modifiers ?_
  refine .bind .peek fun kind => ?_
  split
  · refine .wrap rfl (.seq .bump <| .bind yields_atTypeStart fun _ => ?_)
    exact .optional .peekAt (yields_type hc) <|
      .seq (.commaSeparated trivial (yields_constElement hc)) .expectEnd
  · exact .wrap rfl (yields_functionRest hc)
  · exact nodeSince_propertyRest hc
  · exact .bind yields_atTypeStart fun _ => .ite (nodeSince_propertyRest hc) .unexpected

theorem yieldsNode_classMember : YieldsNode (classMember call) := by
  refine NodeSince.yields (.seq (yields_attributeGroups hc) ?_)
  refine .bind .peek fun kind => ?_
  split
  · exact .wrap rfl yields_traitUseRest
  · refine .wrap rfl (.seq .bump <| .seq yields_expectMemberName.any ?_)
    exact .cond (.eat trivial) (.seq hc.expr.any .expectEnd) .expectEnd
  · exact nodeSince_modifiedMember hc

/-! ### Braces -/

omit hc in
/-- `braced` makes a whole block of nodes between braces. -/
theorem yieldsNode_braced {items : Parse Unit} (hitems : Yields noLeaf items)
    (hkind : ∀ kindOf cs, (∃ opening us closing, cs = opening :: (us ++ [closing]) ∧
      Tree.IsSign kindOf .blockBegin opening ∧ Tree.IsSign kindOf .blockEnd closing ∧
      ∀ t ∈ us, t.isNode = true) → Whole kindOf kind cs) :
    YieldsNode (node kind (do expect .blockBegin; items; expect .blockEnd)) := by
  intro input s
  have hrest : ∀ s, Forms input (fun ts => ∃ us closing, ts = us ++ [closing] ∧
      closing.IsSign input.kind? .blockEnd ∧ ∀ t ∈ us, t.isNode = true)
      (do items; expect .blockEnd) s := by
    refine fun s => (hitems input s).bind Forms.expect ?_
    rintro us _ hus ⟨closing, rfl, hclosing⟩
    exact ⟨us, closing, rfl, hclosing, bare_noLeaf.mp hus⟩
  refine Forms.node (Forms.expect.bind (hrest _) ?_) (hkind _)
  rintro _ _ ⟨opening, rfl, hopening⟩ ⟨us, closing, rfl, hclosing, hus⟩
  exact ⟨opening, us, closing, rfl, hopening, hclosing, hus⟩

omit hc in
theorem YieldsNode.guarded {parse : Parse Unit} (hparse : YieldsNode parse) :
    YieldsNode (guarded parse) := fun input s => (hparse input s).guarded

theorem yieldsNode_classBody : YieldsNode (classBody call) := by
  refine yieldsNode_braced ?_ fun _ _ h => h
  refine .repeating (.bind .check fun _ => .cond .atEnd .pure ?_)
  exact .seq (yieldsNode_classMember hc).guarded.yields .pure

theorem yields_typeDeclRest (kind : NodeKind) : Yields anyLeaf (typeDeclRest call kind) := by
  refine .seq .bump <| .seq (.expect trivial) ?_
  have hrest : Yields anyLeaf (do inheritance; classBody call) :=
    .seq yields_inheritance (yieldsNode_classBody hc).yields
  exact .ite (.seq (yields_colonType hc rfl) hrest) hrest

omit hc in
theorem free_of_declarationKind? {token : TokenKind} (h : declarationKind? token = some kind) :
    free kind = true := by
  unfold declarationKind? at h
  split at h <;> cases h <;> rfl

theorem yieldsNode_declaration : YieldsNode (declaration call) := by
  refine NodeSince.yields (.seq (yields_attributeGroups hc) <| .seq yields_modifiers ?_)
  refine .bind .peek fun token => ?_
  split
  · exact .wrap rfl (yields_functionRest hc)
  · next kind _ hkind =>
    obtain ⟨token, -, htoken⟩ := Option.bind_eq_some_iff.mp hkind
    exact .wrap (free_of_declarationKind? htoken) (yields_typeDeclRest hc kind)
  · exact .unexpected

/-! ## Expressions -/

theorem yields_argument : Yields innerLeaf (argument call) := by
  refine .bind .peek fun _ => .cond .peekAt (.node rfl ?_) hc.expr
  exact .seq .bump <| .seq .bump hc.expr.any

theorem yieldsNode_arguments : YieldsNode (arguments call) := by
  refine EndsWith.node .parenEnd rfl (by decide) ?_
  refine .seq (.expect trivial) <| .bind .check fun _ => ?_
  have hrest : EndsWith .parenEnd (do itemsUntil .parenEnd (argument call); expect .parenEnd) :=
    .seq (.itemsUntil trivial (yields_argument hc).any) .expect
  exact .bind .peekAt fun _ => .ite (.seq .bump hrest) hrest

theorem yields_arrayElement : Yields A (arrayElement call) := by
  have hnode : YieldsNode (arrayElement call) := by
    refine fun input s => Forms.node ?_ fun cs h => SignedOnce.not_isOneOf h
    exact (hc.expr input _).bind (forms_optionalValue hc) fun _ _ => SignedOnce.prepend
  exact hnode.yields

theorem yields_arrayElements (close : TokenKind) : Yields anyLeaf (arrayElements call close) := by
  refine .repeating (.bind .check fun _ => .cond .atEnd .pure ?_)
  refine .cond (.eat trivial) .pure ?_
  exact .seq (yields_arrayElement hc) <| .eat trivial

theorem yields_parenthesised : Yields A (parenthesised call) :=
  .node rfl (.seq .bump <| .seq hc.expr.any <| .expect trivial)

theorem yields_newExpr : Yields A (newExpr call) := by
  refine .node rfl (.seq .bump <| .cond .check (.node rfl ?_) ?_)
  · have hrest : Yields anyLeaf (do inheritance; classBody call) :=
      .seq yields_inheritance (yieldsNode_classBody hc).yields
    exact .seq .bump <| .cond .check (.seq hc.arguments hrest) hrest
  · have hrest : Yields anyLeaf (do if ← check .parenBegin then call .arguments) :=
      .cond .check hc.arguments .pure
    refine .bind .peek fun _ => ?_
    split
    · exact .seq .bump hrest
    · exact .seq .bump hrest
    · exact .seq .bump hrest
    · exact .seq (yields_parenthesised hc) hrest
    · exact .seq (.expect trivial) hrest

theorem yields_armConditions : Yields innerLeaf (armConditions call) := by
  refine .seq hc.expr <| .repeating (.cond (.eat (by decide)) ?_ .pure)
  exact .cond .check .pure (.seq hc.expr .pure)

omit hc in
/-- An arrow, with trees without a sign on both sides. -/
def Arrowed (input : Input) (ts : List Tree) : Prop :=
  ∃ front sign behind, ts = front ++ sign :: behind ∧ sign.IsSign input.kind? .doubleArrow ∧
    Bare input innerLeaf (front ++ behind)

omit hc in
theorem Arrowed.prepend (hts : Bare input innerLeaf ts) (hus : Arrowed input us) :
    Arrowed input (ts ++ us) := by
  obtain ⟨front, sign, behind, rfl, hsign, hbare⟩ := hus
  refine ⟨ts ++ front, sign, behind, by simp, hsign, ?_⟩
  rw [append_assoc]
  exact bare_append.mpr ⟨hts, hbare⟩

/-- `matchArm` has one arrow, behind its conditions. -/
theorem yieldsNode_matchArm : YieldsNode (matchArm call) := by
  intro input s
  have harrow : ∀ s, Forms input (Arrowed input) (do expect .doubleArrow; call.expr) s := by
    refine fun s => Forms.expect.bind (hc.expr input _) ?_
    rintro _ us ⟨sign, rfl, hsign⟩ hus
    exact ⟨[], sign, us, rfl, hsign, hus⟩
  have hdefault : Yields innerLeaf (eat .defaultKw) := .eat (by decide)
  refine Forms.node (Q := Arrowed input) ?_ ?_
  · refine (hdefault input _).bind ?_ fun _ _ => Arrowed.prepend
    refine .ite (fun _ => ?_) fun _ => harrow _
    exact (yields_armConditions hc input _).bind (harrow _) fun _ _ => Arrowed.prepend
  · rintro _ ⟨front, sign, behind, rfl, hsign, hbare⟩
    exact ⟨front, sign, behind, rfl, hsign, hbare.not_isOneOf (by decide)⟩

theorem yields_condition : Yields anyLeaf call.condition :=
  .seq (.expect trivial) <| .seq hc.expr.any <| .expect trivial

/-- `matchExpr` has its arms between its only braces. -/
theorem yieldsNode_matchExpr : YieldsNode (matchExpr call) := by
  intro input s
  have harms : Yields innerLeaf (itemsUntil .blockEnd (matchArm call)) :=
    .itemsUntil (by decide) (yieldsNode_matchArm hc).yields
  have hclosing : ∀ s, Forms input (fun ts => ∃ arms closing, ts = arms ++ [closing] ∧
      Bare input innerLeaf arms ∧ closing.IsSign input.kind? .blockEnd)
      (do itemsUntil .blockEnd (matchArm call); expect .blockEnd) s := by
    refine fun s => (harms input s).bind Forms.expect ?_
    rintro arms _ harms ⟨closing, rfl, hclosing⟩
    exact ⟨arms, closing, rfl, harms, hclosing⟩
  have hbraces : ∀ s, Forms input (fun ts => ∃ opening arms closing,
      ts = opening :: (arms ++ [closing]) ∧ opening.IsSign input.kind? .blockBegin ∧
      Bare input innerLeaf arms ∧ closing.IsSign input.kind? .blockEnd)
      (do expect .blockBegin; itemsUntil .blockEnd (matchArm call); expect .blockEnd) s := by
    refine fun s => Forms.expect.bind (hclosing _) ?_
    rintro _ _ ⟨opening, rfl, hopening⟩ ⟨arms, closing, rfl, harms, hclosing⟩
    exact ⟨opening, arms, closing, rfl, hopening, harms, hclosing⟩
  have hsubject : ∀ s, Forms input (fun ts => ∃ paren subject opening arms closing,
      ts = paren :: (subject ++ opening :: (arms ++ [closing])) ∧
      opening.IsSign input.kind? .blockBegin ∧ closing.IsSign input.kind? .blockEnd ∧
      ∀ t ∈ paren :: subject ++ arms, ¬ t.IsOneOf input.kind? braces) (do
      call.condition; expect .blockBegin; itemsUntil .blockEnd (matchArm call)
      expect .blockEnd) s := by
    refine fun s => (forms_condition hc input s).bind (hbraces _) ?_
    rintro _ _ ⟨paren, us, paren', rfl, hparen, hus, hparen'⟩
      ⟨opening, arms, closing, rfl, hopening, harms, hclosing⟩
    refine ⟨paren, us ++ [paren'], opening, arms, closing, by simp, hopening, hclosing, ?_⟩
    have hbare : Bare input (· ∉ braces) (paren :: (us ++ [paren']) ++ arms) := by
      have hinner {ts : List Tree} (h : Bare input innerLeaf ts) : Bare input (· ∉ braces) ts :=
        h.mono (innerLeaf.not_mem (by decide))
      have hsubject : Bare input (· ∉ braces) ([paren] ++ (us ++ [paren'])) :=
        bare_append.mpr ⟨bare_sign hparen (by decide),
          bare_append.mpr ⟨hinner hus, bare_sign hparen' (by decide)⟩⟩
      exact bare_append.mpr ⟨hsubject, hinner harms⟩
    exact hbare.not_isOneOf fun _ hmem h => h hmem
  refine Forms.node (Forms.bump.bind (hsubject _) ?_) fun cs h => h
  rintro ts _ ⟨hts, -⟩ ⟨paren, subject, opening, arms, closing, rfl, hopening, hclosing, hnone⟩
  match ts with
  | [] =>
    -- there was no keyword to pass, and the parenthesis stands in its place
    exact ⟨paren, subject, opening, arms, closing, rfl, hopening, hclosing,
      fun t ht => hnone t (mem_cons_of_mem _ ht)⟩
  | [word] => exact ⟨word, paren :: subject, opening, arms, closing, rfl, hopening, hclosing, hnone⟩

theorem yieldsSince_closure : YieldsSince innerLeaf fun since => closure call since := by
  refine .seq (.of_yields (.skip (by decide))) ?_
  refine .bind (.of_yields .check) fun _ => ?_
  refine .ite (.wrap rfl ?_) (.wrap rfl ?_)
  · exact .seq .bump <| .seq (.skip trivial) <| .seq (yieldsNode_paramList hc).yields <|
      .seq (yields_returnType hc) <| .seq (.expect trivial) (hc.atLeast _).any
  · exact .seq (.expect trivial) <| .seq (.skip trivial) <| .seq (yieldsNode_paramList hc).yields <|
      .optional .check yieldsNode_closureUse.yields <| .seq (yields_returnType hc) hc.block.yields

theorem yields_dynamicName : Yields A (dynamicName call) := by
  refine .node rfl (.seq .bump <| .cond (.eat trivial) ?_ ?_)
  · exact .seq hc.expr.any <| .expect trivial
  · exact hc.primary.any

theorem yields_primary : Yields innerLeaf (primary call) := by
  intro input s
  refine .look rfl ?_
  rw [answer_peek]
  cases hseen : input.kind? s.position with
  | none => exact .unexpected
  | some kind =>
    refine .look rfl ?_
    have hliteral : ∀ k, innerLeaf k → some kind = some k →
        Forms input (Bare input innerLeaf) bump s := fun k hk heq => .bump_bare (hseen.trans heq) hk
    have hclosure : Yields innerLeaf (do
        let since ← marker; attributeGroups call; closure call since) :=
      .marker (.seq (.of_yields (yields_attributeGroups hc)) <| yieldsSince_closure hc)
    have hlist {p : Parse Unit} (hp : YieldsNode p) : Forms input (Bare input innerLeaf) p s :=
      hp.yields input s
    split
    · exact hliteral _ (by decide) rfl
    · exact hliteral _ (by decide) rfl
    · exact hliteral _ (by decide) rfl
    · exact hliteral _ (by decide) rfl
    · exact hliteral _ (by decide) rfl
    · exact yields_dynamicName hc input s
    · exact yields_parenthesised hc input s
    · refine hlist (EndsWith.node .arrayEnd rfl (by decide) (.seq .bump ?_))
      exact .seq (yields_arrayElements hc _) .expect
    · refine hlist (EndsWith.node .parenEnd rfl (by decide) (.seq .bump ?_))
      exact .seq (.expect trivial) <| .seq (yields_arrayElements hc _) .expect
    · exact yields_newExpr hc input s
    · exact hlist (yieldsNode_matchExpr hc)
    · exact hclosure input s
    · exact hclosure input s
    · exact hclosure input s
    · refine .ite (fun _ => ?_) fun _ => forms_reservedPrimary hseen
      refine hlist (EndsWith.node .parenEnd rfl (by decide) (.seq .bump ?_))
      exact .seq .bump <| .seq (yields_arrayElements hc _) .expect
    · refine .ite (fun _ => ?_) fun _ => forms_reservedPrimary hseen
      exact Yields.marker (yieldsSince_closure hc) input s
    · exact forms_reservedPrimary hseen

theorem yields_memberName : Yields anyLeaf (memberName call) := by
  refine .bind .peek fun _ => ?_
  split
  · exact .bump
  · exact .node rfl (.seq .bump <| .seq hc.expr.any <| .expect trivial)
  · exact hc.primary.any
  · exact yields_expectMemberName.any

theorem yieldsSince_memberAccess {plain called : NodeKind}
    (hplain : free plain = true) (hcalled : free called = true) :
    YieldsSince A fun since => memberAccess call since plain called := by
  refine .bind (.of_yields yields_callAhead) fun _ => .ite (.wrap hcalled ?_) (.wrap hplain ?_)
  · exact .seq .bump <| .seq (yields_memberName hc) hc.arguments
  · exact .seq .bump <| yields_memberName hc

theorem yieldsSince_postfixStep : YieldsSince A fun since => postfixStep call since := by
  refine .bind (.of_yields .peek) fun _ => ?_
  split
  · exact .seq (.wrap rfl hc.arguments) <| .of_yields .pure
  · exact .seq (yieldsSince_memberAccess hc rfl rfl) <| .of_yields .pure
  · exact .seq (yieldsSince_memberAccess hc rfl rfl) <| .of_yields .pure
  · exact .seq (yieldsSince_memberAccess hc rfl rfl) <| .of_yields .pure
  · refine .seq (.wrap rfl ?_) <| .of_yields .pure
    exact .seq .bump <| .optional .check hc.expr.any <| .expect trivial
  · exact .seq (.wrap rfl .bump) <| .of_yields .pure
  · exact .seq (.wrap rfl .bump) <| .of_yields .pure
  · exact .of_yields .pure

theorem yields_operand : Yields innerLeaf (operand call) :=
  .marker (.seq (.of_yields hc.primary) <| .repeating (yieldsSince_postfixStep hc))

theorem yields_leading (hkind : free kind = true) : Yields A (leading call kind power) :=
  .node hkind (.seq .bump (hc.atLeast power).any)

/-- What was added since a marker gets a value. -/
theorem yieldsSince_assign :
    YieldsSince innerLeaf fun since => wrap since .assignExpr (do bump; call.atLeast power) := by
  have hvalue (input : Input) (s : State) :
      Forms input (SignedOnce input) (do bump; call.atLeast power) s :=
    (Forms.bump.mono fun _ h => h.1).signed fun _ => hc.atLeast power
  refine (FormsSince.wrap_whole hvalue fun input ts us hts hus => ?_).mono ?_
  · exact SignedOnce.not_isOneOf (hus.prepend hts)
  · rintro input ts ⟨t, rfl, hnode⟩
    exact forall_mem_singleton.mpr (.inl hnode)

theorem yields_unary : Yields innerLeaf (unary call) := by
  refine .bind .peek fun _ => ?_
  split
  case h_11 => exact .node rfl (.seq .bump hc.unary.any)
  case h_15 =>
    refine .node rfl (.seq .bump <| .cond yields_atExpressionEnd ?_ .pure)
    exact .seq (hc.atLeast _).any <| .cond (.eat trivial) (hc.atLeast _).any .pure
  case h_16 =>
    refine .marker (.seq (.of_yields (yields_operand hc)) ?_)
    refine .bind (.of_yields .checkAny) fun _ => .ite ?_ (.of_yields .pure)
    exact yieldsSince_assign hc
  all_goals exact yields_leading hc rfl

theorem yields_infixRest (power : Power) : Yields anyLeaf (infixRest call power) := by
  refine .seq .bump ?_
  split
  · have hrest : Yields anyLeaf (call.above .ternary) := (hc.above _).any
    refine .cond (.eat trivial) ?_ hrest
    exact .seq (hc.atLeast _).any <| .seq (.expect trivial) hrest
  · exact (hc.atLeast _).any
  · exact (hc.atLeast _).any
  · exact (hc.above _).any

omit hc in
theorem free_infixKind (power : Power) : free (infixKind power) = true := by
  cases power <;> rfl

theorem yieldsSince_infixStep (least : Nat) :
    YieldsSince A fun since => infixStep call since least := by
  refine .bind (.of_yields .peek) fun _ => ?_
  split
  · next power _ =>
    refine .ite (.of_yields .pure) ?_
    exact .seq (.wrap (free_infixKind power) (yields_infixRest hc power)) <| .of_yields .pure
  · exact .of_yields .pure

theorem yields_expression (least : Nat) : Yields innerLeaf (expression call least) :=
  .marker (.seq (.of_yields hc.unary) <| .repeating (yieldsSince_infixStep hc least))

end

end Rules

end Grammar

end CodeLayout
