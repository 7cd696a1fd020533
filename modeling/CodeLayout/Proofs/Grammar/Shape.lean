import CodeLayout.Proofs.Grammar.Operands

/-!
# The shape of parsed trees

Every rule of the grammar only adds to the tree (`rulesHold_run`), so that the leaves of a parsed tree
are the positions passed, in order (`parse_spec`).  Two facts about the leaves outside of nodes
make this go through recovery as well: an expression adds no parenthesis of its own there, and a
statement or a member adds no leaf at all, since one that fails ends up in an error node.  They also
keep the braces of blocks and the parentheses of counting loops in order (`Tree.Orderly`).
-/

namespace CodeLayout.Grammar

open List
open CodeLayout.Tree (Formed Headed Led Orderly)

section Rules

variable {call : Rules} {A : TokenKind → Prop} (hc : RulesGrow call)
include hc

variable {input : Input} {s : State} {kind : TokenKind} {ts : List Tree}

/-! ## Statements -/

theorem grows_statementsUntil (terminators : List TokenKind) :
    Grows A (statementsUntil call terminators) :=
  .repeating (.bind .atEnd fun _ => .cond .checkAny .pure (.seq hc.statement.grows .pure))

theorem grows_block : GrowsNode (block call) :=
  PairGrows.node .blockBegin .blockEnd (fun _ _ h => ⟨h, trivial⟩)
    (.seq (.expect (by decide)) <| .seq (grows_statementsUntil hc _) <|
      .of_grows (.expect (by decide)))

/-- `body` adds one tree, or nothing. -/
theorem adds_body (hA : A .colon) (input : Input) (s : State) :
    Adds input (fun more _ => Neat input A more ∧ more.length ≤ 1) (body call) s := by
  refine Adds.look rfl ?_
  split
  · next hcolon =>
    have hseen : input.kind? s.position = some .colon := by simpa using hcolon
    refine (Adds.report (s := s)).bind (Adds.bump_seen hseen) ?_
    rintro _ _ _ ⟨rfl, -⟩ ⟨t, rfl, ht⟩
    exact ⟨neat_sign ht hA, Nat.le_refl 1⟩
  · exact (hc.statement input s).mono fun _ _ h => ⟨h.neat, h.lone.1⟩

theorem grows_body (hA : A .colon) : Grows A (body call) :=
  fun input s => (adds_body hc hA input s).mono fun _ _ h => h.1

theorem grows_exprStmt : GrowsNode (exprStmt call) := .node rfl (.seq hc.expr.any .expectEnd)

/-- `node` that starts with its keyword, and a condition and a body. -/
theorem adds_conditionalNode {token : TokenKind} {kind : NodeKind} (hkind : leads kind = true)
    (hseen : input.kind? s.position = some token) (htoken : token ≠ .openTagWithEcho) :
    Adds input (fun more _ => Sole input more ∧ ∀ t ∈ more, t.isKind kind = true ∧ Leafy t)
      (node kind (conditional call)) s :=
  Adds.led_bump hkind hseen htoken (.seq hc.condition <| grows_body hc trivial)

omit hc in
/-- Behind the closing parenthesis of a condition there is one tree at most. -/
def Conditioned (input : Input) (ts : List Tree) : Prop :=
  ∃ head close rest, ts = head ++ (close ++ rest) ∧ Neat input (· ≠ .parenEnd) head ∧
    (Neat input anyLeaf close ∧ close.length ≤ 1) ∧
      Neat input (· ≠ .parenEnd) rest ∧ rest.length ≤ 1

omit hc in
theorem Conditioned.append_left {us : List Tree} (h : Conditioned input us)
    (hts : Neat input (· ≠ .parenEnd) ts) : Conditioned input (ts ++ us) := by
  obtain ⟨head, close, rest, rfl, hhead, hrest⟩ := h
  exact ⟨ts ++ head, close, rest, by rw [append_assoc], neat_append.mpr ⟨hts, hhead⟩, hrest⟩

omit hc in
theorem Conditioned.neat (h : Conditioned input ts) : Neat input anyLeaf ts := by
  obtain ⟨head, close, rest, rfl, hhead, hclose, hrest, -⟩ := h
  exact neat_append.mpr ⟨hhead.mono fun _ _ => trivial,
    neat_append.mpr ⟨hclose.1, hrest.mono fun _ _ => trivial⟩⟩

omit hc in
/-- A clause behind a condition and its body. -/
def IsClause (t : Tree) : Prop := t.isKind .elseIfClause = true ∨ t.isKind .elseClause = true

omit hc in
/-- `expect` passes a symbol, or nothing. -/
theorem adds_expect :
    Adds input (fun more _ => more = [] ∨ ∃ found t, more = [t] ∧ t.IsSign input.kind? found)
      (expect kind) s := by
  refine Adds.look rfl ?_
  rw [answer_peek]
  cases input.kind? s.position with
  | none => exact Adds.report.mono fun _ _ h => .inl h.1
  | some found =>
    simp only
    split
    · exact Adds.bump
    · exact Adds.report.mono fun _ _ h => .inl h.1

theorem adds_conditional (hseen : input.kind? s.position = some .ifKw) :
    Adds input (fun more _ => Led input.kind? more ∧ Conditioned input more)
      (conditional call) s := by
  have hhead : Grows (· ≠ .parenEnd) (do expect .parenBegin; call.expr) :=
    .seq (.expect (by decide)) <| hc.expr.mono fun _ h => h.2
  have hclose (s : State) : Adds input (fun more _ => Conditioned input more)
      (do expect .parenEnd; body call) s := by
    have hsign : Adds input (fun more _ => Neat input anyLeaf more ∧ more.length ≤ 1)
        (expect .parenEnd) s := by
      refine adds_expect.mono ?_
      rintro _ _ (rfl | ⟨_, t, rfl, ht⟩)
      · exact ⟨neat_nil, Nat.zero_le 1⟩
      · exact ⟨neat_sign ht trivial, Nat.le_refl 1⟩
    exact hsign.bind (adds_body hc (A := (· ≠ .parenEnd)) (by decide) input _)
      fun close rest _ h1 h2 => ⟨[], close, rest, rfl, neat_nil, h1, h2⟩
  have hword : Adds input (fun more _ => Led input.kind? more ∧
      Neat input (· ≠ .parenEnd) more) bump s := by
    refine (Adds.bump_seen hseen).mono ?_
    rintro _ _ ⟨t, rfl, ht⟩
    exact ⟨⟨t, [], _, rfl, ht, by decide⟩, neat_sign ht (by decide)⟩
  have hchain : Adds input (fun more _ => Led input.kind? more ∧ Conditioned input more) (do
      bump
      (do expect .parenBegin; call.expr)
      (do expect .parenEnd; body call)) s :=
    hword.bind (R := fun more _ => Conditioned input more)
      ((hhead input _).bind (hclose _) fun _ _ _ h1 h2 => h2.append_left h1)
      fun _ _ _ h1 h2 => ⟨led_append h1.1, h2.append_left h1.2⟩
  exact fun h start new hadd => hchain h start new hadd

omit hc in
theorem IsClause.isNode {t : Tree} (h : IsClause t) : t.isNode = true := by
  cases t with
  | leaf i w => exact h.elim (by simp [Tree.isKind, Tree.kind?]) (by simp [Tree.isKind, Tree.kind?])
  | node k w cs => rfl

omit hc in
/-- The closing parenthesis of what is `Conditioned` is the only one. -/
theorem Conditioned.formed {clauses : List Tree} (hled : Led input.kind? ts)
    (h : Conditioned input ts) (hclauses : ∀ t ∈ clauses, IsClause t) :
    Formed input.kind? .ifStmt (ts ++ clauses) := by
  obtain ⟨head, close, rest, rfl, hhead, ⟨-, hclose⟩, hrest, hle⟩ := h
  refine ⟨led_append hled, fun front t behind heq hsign u hu => ?_⟩
  have hnothead : t ∉ head := fun ht => hhead.bare.not_isSign ht hsign
  have hnotrest : t ∉ rest ++ clauses := by
    rw [mem_append]
    rintro (ht | ht)
    · exact hrest.bare.not_isSign ht hsign
    · cases t with
      | leaf i w => exact absurd (hclauses _ ht).isNode (by simp [Tree.isNode, Tree.kind?])
      | node k w cs => exact hsign
  have hmem : t ∈ close := by
    have hall : t ∈ head ++ (close ++ rest) ++ clauses := heq ▸ by simp
    simp only [append_assoc, mem_append] at hall hnotrest
    tauto
  obtain ⟨x, rfl⟩ := length_eq_one_iff.mp
    (Nat.le_antisymm hclose (length_pos_of_mem hmem))
  rw [show head ++ ([x] ++ rest) ++ clauses = head ++ x :: (rest ++ clauses) by simp] at heq
  obtain ⟨-, -, rfl⟩ := (append_cons_inj_of_notMem hnothead hnotrest).mp heq
  rcases rest with _ | ⟨y, rest⟩
  · exact hclauses u (mem_of_mem_drop hu)
  · obtain rfl : rest = [] := length_eq_zero_iff.mp (by simpa using hle)
    exact hclauses u (by simpa using hu)

theorem adds_ifStmt (hseen : input.kind? s.position = some .ifKw) :
    Adds input (fun more _ => Sole input more) (ifStmt call) s := by
  have hadditive : Effect.Additive fun input _ more _ =>
      Neat input noLeaf more ∧ ∀ t ∈ more, IsClause t :=
    ⟨⟨neat_nil, forall_mem_nil _⟩, fun h1 h2 => ⟨neat_append.mpr ⟨h1.1, h2.1⟩,
      forall_mem_append.mpr ⟨h1.2, h2.2⟩⟩⟩
  have helse : Meets (fun input _ more _ => Neat input noLeaf more ∧ ∀ t ∈ more, IsClause t) (do
      if ← check .elseKw then
        node .elseClause do
          bump
          body call) := by
    refine Meets.ifCheck (fun input s hseen => ?_) ?_
    · refine (Adds.led_bump rfl hseen (by decide) (grows_body hc trivial)).mono fun _ _ h => ?_
      exact ⟨h.1.neat, fun t ht => .inr (h.2 t ht).1⟩
    · exact fun input s => Adds.pure.mono fun _ _ h => h ▸ ⟨neat_nil, forall_mem_nil _⟩
  have hloop : Meets (fun input _ more _ => Neat input noLeaf more ∧ ∀ t ∈ more, IsClause t)
      (repeating do
        if ← check .elseIfKw then
          node .elseIfClause (conditional call)
          return true
        return false) := by
    refine .repeating hadditive (fun _ _ => Adds.cutOff.mono fun _ _ h => h.1 ▸ hadditive.nil (s := s))
      (.ifCheck (fun input s hseen => Adds.thenPure ?_) (.pure hadditive))
    refine (adds_conditionalNode hc rfl hseen (by decide)).mono fun _ _ h => ?_
    exact ⟨h.1.neat, fun t ht => .inl (h.2 t ht).1⟩
  have hbody : Adds input (fun cs _ => Neat input anyLeaf cs ∧ Formed input.kind? .ifStmt cs)
      (do
        conditional call
        repeating do
          if ← check .elseIfKw then
            node .elseIfClause (conditional call)
            return true
          return false
        if ← check .elseKw then
          node .elseClause do
            bump
            body call) { s with builder := s.builder.start .ifStmt } := by
    have hhead : Adds input (fun more _ => Led input.kind? more ∧ Conditioned input more)
        (conditional call) { s with builder := s.builder.start .ifStmt } :=
      adds_conditional hc hseen
    refine hhead.bind (Meets.bind hadditive hloop (fun _ => helse) input _) ?_
    intro ts clauses _ h1 h2
    exact ⟨neat_append.mpr ⟨h1.2.neat, h2.1.mono fun _ h => h.elim⟩, h1.2.formed h1.1 h2.2⟩
  have hnode : Adds input (fun more _ => ∃ cs, more = [.branch .ifStmt cs] ∧ Sole input more)
      (ifStmt call) s := Adds.sole hbody fun cs _ h => ⟨trivial, h⟩
  exact hnode.mono fun _ _ ⟨_, _, h⟩ => h

theorem grows_doStmt : GrowsNode (doStmt call) :=
  .node rfl (.seq .bump <| .seq hc.statement.grows <| .seq (.expect trivial) <|
    .seq hc.condition .expectEnd)

theorem pairGrows_forPart : PairGrows .parenBegin .parenEnd (forPart call .parenEnd) := by
  have hclose : PairGrows .parenBegin .parenEnd (expect .parenEnd) :=
    .of_grows (.expect (by decide))
  refine .bind .check fun _ => .ite (.seq ?_ hclose) hclose
  exact .commaSeparated (by decide) (hc.expr.mono fun _ h => h.2)

theorem grows_forPart : Grows (· ≠ .parenEnd) (forPart call .semiColon) := by
  refine .optional .check ?_ <| .expect (by decide)
  exact .commaSeparated (by decide) (hc.expr.mono fun _ h => h.2)

theorem adds_forStmt (hseen : input.kind? s.position = some .forKw) :
    Adds input (fun more _ => Sole input more) (forStmt call) s := by
  have hhead : PairGrows .parenBegin .parenEnd (do
      expect .parenBegin; forPart call .semiColon; forPart call .semiColon
      forPart call .parenEnd; body call) :=
    .seq (.expect (by decide)) <| .seq (grows_forPart hc) <| .seq (grows_forPart hc) <|
      .bind_grows (pairGrows_forPart hc) (grows_body hc (by decide))
  have hbump : Adds input (fun more _ => Neat input (· ≠ .parenEnd) more) bump
      { s with builder := s.builder.start .forStmt } := Adds.bump_neat hseen (by decide)
  have hnode : Adds input (fun more _ => ∃ cs, more = [.branch .forStmt cs] ∧ Sole input more)
      (forStmt call) s := by
    refine Adds.sole (R := Tree.Paired input.kind? .parenBegin .parenEnd) ?_
      fun _ _ h => ⟨h, trivial⟩
    refine hbump.bind (hhead input _) fun _ _ _ hts hus => ?_
    exact ⟨(hus.append_left hts).neat, (hus.append_left hts).paired⟩
  exact hnode.mono fun _ _ ⟨_, _, h⟩ => h

theorem grows_foreachTarget : Grows operandLeaf (foreachTarget call) :=
  .cond .check (.node rfl (.seq .bump (grows_operand hc).any)) (grows_operand hc)

theorem adds_foreachStmt (hseen : input.kind? s.position = some .foreachKw) :
    Adds input (fun more _ => Sole input more) (foreachStmt call) s := by
  refine (Adds.led_bump rfl hseen (by decide) ?_).mono fun _ _ h => h.1
  refine .seq (.expect trivial) <| .seq hc.expr.any ?_
  refine .seq (.expect trivial) <| .seq (grows_foreachTarget hc).any ?_
  exact .optional (.eat trivial) (grows_foreachTarget hc).any <| .seq (.expect trivial) <|
    grows_body hc trivial

theorem adds_caseClause (hseen : input.kind? s.position = some kind)
    (hkind : kind ≠ .openTagWithEcho) :
    Adds input (fun more _ => Sole input more ∧ ∀ t ∈ more, t.isKind .caseClause = true ∧ Leafy t)
      (caseClause call) s := by
  have hrest : Grows anyLeaf (do
      expectAny [.colon, .semiColon]; statementsUntil call [.caseKw, .defaultKw, .blockEnd]) :=
    .seq (.expectAny fun _ _ => trivial) <| grows_statementsUntil hc _
  have hseen' : input.kind? ({ s with builder := s.builder.start .caseClause } : State).position =
      some kind := hseen
  refine Adds.led rfl ?_
  by_cases hcase : kind = .caseKw
  · -- the keyword, and the value of the case
    subst hcase
    refine (Adds.eat_led hseen' hkind).bind
      (Grows.ite (.seq hc.expr.any hrest) (.bind .bump fun _ => hrest) input _) ?_
    exact fun _ _ _ h1 h2 => ⟨neat_append.mpr ⟨h1.1, h2⟩, led_append h1.2⟩
  · -- the other keyword
    have hne : input.kind? ({ s with builder := s.builder.start .caseClause } : State).position ≠
        some .caseKw := by
      rw [hseen']
      simpa using hcase
    obtain ⟨hafter, hanswer⟩ := eat_eq_of_ne hne
    refine Adds.look hafter ?_
    rw [hanswer]
    refine (Adds.bump_led hseen' hkind).bind (hrest input _) ?_
    exact fun _ _ _ h1 h2 => ⟨neat_append.mpr ⟨h1.1, h2⟩, led_append h1.2⟩

/-- `cases` adds no nodes but cases in the braces of a choice. -/
theorem meets_cases :
    Meets (fun input _ more _ => Neat input anyLeaf more ∧
      ∀ t ∈ more, t.isNode = true → t.isKind .caseClause = true) (do
        expect .blockBegin
        repeating do
          if ← checkAny [.caseKw, .defaultKw] then
            caseClause call
            return true
          return false
        expect .blockEnd) := by
  have hadditive : Effect.Additive fun input _ more _ => Neat input anyLeaf more ∧
      ∀ t ∈ more, t.isNode = true → t.isKind .caseClause = true :=
    ⟨⟨neat_nil, forall_mem_nil _⟩, fun h1 h2 => ⟨neat_append.mpr ⟨h1.1, h2.1⟩,
      forall_mem_append.mpr ⟨h1.2, h2.2⟩⟩⟩
  have hsign (kind : TokenKind) : Meets (fun input _ more _ => Neat input anyLeaf more ∧
      ∀ t ∈ more, t.isNode = true → t.isKind .caseClause = true) (expect kind) := by
    refine fun input s => adds_expect.mono ?_
    rintro _ _ (rfl | ⟨found, t, rfl, ht⟩)
    · exact hadditive.nil (s := s)
    · refine ⟨neat_sign ht trivial, forall_mem_singleton.mpr fun hnode => ?_⟩
      cases t with
      | leaf i w => cases hnode
      | node k w cs => exact ht.elim
  refine .bind hadditive (hsign _) fun _ => .bind hadditive (.repeating hadditive ?_ ?_) fun _ => hsign _
  · exact fun input s => Adds.cutOff.mono fun _ _ h => h.1 ▸ hadditive.nil (s := s)
  · refine .ifCheckAny (fun input s kind hmem hseen => Adds.thenPure ?_) (.pure hadditive)
    have hkind : kind ≠ .openTagWithEcho := by
      rintro rfl
      simp at hmem
    exact (adds_caseClause hc hseen hkind).mono fun _ _ h => ⟨h.1.neat, fun t ht _ => (h.2 t ht).1⟩

theorem adds_switchStmt (hseen : input.kind? s.position = some .switchKw) :
    Adds input (fun more _ => Sole input more) (switchStmt call) s := by
  refine (Adds.led_bump rfl hseen (by decide) (.seq hc.condition ?_)).mono fun _ _ h => h.1
  intro input s
  have hnode : Adds input (fun more _ => ∃ cs, more = [.branch .switchBody cs] ∧ Sole input more) _ s :=
    Adds.sole (meets_cases hc input _) fun cs _ h => ⟨trivial, h⟩
  exact hnode.mono fun _ _ ⟨_, _, h⟩ => h.neat

theorem adds_catchClause (hseen : input.kind? s.position = some .catchKw) :
    Adds input (fun more _ => Neat input A more) (catchClause call) s := by
  refine (Adds.led_bump rfl hseen (by decide) ?_).mono fun _ _ h => h.1.neat
  exact .seq (.expect trivial) <| .seq (.expect trivial) <|
    .seq (.whileEating trivial (.expect trivial)) <| .seq (.skip trivial) <| .seq (.expect trivial)
    hc.block.grows

theorem grows_tryStmt : GrowsNode (tryStmt call) := by
  refine .node rfl (.seq .bump <| .seq hc.block.grows <| .seq (.repeating ?_) ?_)
  · exact Meets.ifCheck (fun _ _ hseen => (adds_catchClause hc hseen).thenPure) Grows.pure
  · refine Meets.ifCheck (fun input s hseen => ?_) Grows.pure
    exact (Adds.led_bump rfl hseen (by decide) hc.block.grows).mono fun _ _ h => h.1.neat

theorem grows_returnStmt : GrowsNode (returnStmt call) :=
  .node rfl (.seq .bump <| .cond grows_atExpressionEnd (.seq hc.expr.any .expectEnd) .expectEnd)

theorem grows_exprListStmt {kind : NodeKind} (hkind : plain kind = true) :
    GrowsNode (exprListStmt call kind) :=
  .node hkind (.seq .bump <| .seq (.commaSeparated trivial hc.expr.any) .expectEnd)

theorem grows_echoTag : GrowsNode (echoTag call) :=
  .node rfl (.seq .bump <| .seq (.commaSeparated trivial hc.expr.any) <| .skip trivial)

theorem grows_namespaceDecl : GrowsNode (namespaceDecl call) :=
  .node rfl (.seq .bump <| .seq (.skip trivial) <| .cond .check hc.block.grows .expectEnd)

/-- `useClause` starts the group of an imported name with its brace, unless it is missed. -/
theorem calm_useClause : Meets Calm (useClause call) := by
  have hrest : Meets Calm (do if ← eat .asKw then expectMemberName) :=
    .bind additive_calm calm_eat fun _ => .ite calm_expectMemberName (.pure additive_calm)
  have hgroup : Meets Calm (node .groupUseList do
      expect .blockBegin
      itemsUntil .blockEnd (call .useClause)
      expect .blockEnd) :=
    calm_node_led rfl (by decide) (.bind additive_calm (calm_itemsUntil hc.useClause) fun _ =>
      calm_expect (by decide))
  have hbody : Meets Calm (do
      useType
      expect .name
      if ← eat .backslash then
        node .groupUseList do
          expect .blockBegin
          itemsUntil .blockEnd (call .useClause)
          expect .blockEnd
      if ← eat .asKw then expectMemberName) :=
    .bind additive_calm calm_useType fun _ => .bind additive_calm (calm_expect (by decide)) fun _ =>
      .bind additive_calm calm_eat fun _ => .ite (.bind additive_calm hgroup fun _ => hrest) hrest
  exact fun input s => Adds.mono (calm_node rfl hbody input s) fun _ _ h => h.1

theorem guardable_useStmt (input : Input) (s : State) :
    Adds input (Guardable input) (useStmt call) s := by
  have hbody : Meets Calm (do bump; useType; commaSeparated (call .useClause); expectEnd) :=
    .bind additive_calm calm_bump fun _ => .bind additive_calm calm_useType fun _ =>
      .bind additive_calm (calm_commaSeparated hc.useClause) fun _ => calm_expectEnd
  have hnode : Meets (fun input s ts s' => Calm input s ts s' ∧ Lone ts) (useStmt call) :=
    calm_node rfl hbody
  intro h start new hadd
  obtain ⟨more, hmore, hcalm, hlone⟩ := hnode input s h start new hadd
  exact ⟨more, hmore, hcalm.guardable hadd.wrapped_le hlone⟩

theorem grows_constStmt : GrowsNode (constStmt call) :=
  .node rfl (.seq .bump <| .seq (.commaSeparated trivial (grows_constElement hc)) .expectEnd)

theorem grows_declareStmt : GrowsNode (declareStmt call) := by
  have hdirective : Grows anyLeaf (directive call) :=
    .seq (.expect trivial) <| .seq (.expect trivial) hc.expr.any
  refine .node rfl (.seq .bump <| .seq (.expect trivial) ?_)
  exact .seq (.commaSeparated trivial hdirective) <| .seq (.expect trivial) <|
    .cond .check hc.statement.grows .expectEnd

omit hc in
/-- The first of the symbols `ahead` is the next one. -/
theorem head?_ahead (n : Nat) (input : Input) (s : State) :
    (answer (ahead (n + 1)) input s).head? = input.kind? s.position := by
  show ((input.symbols.extract s.position (s.position + (n + 1))).toList.map Symbol.kind).head? = _
  rw [head?_map, head?_eq_getElem?, Array.getElem?_toList, Array.getElem?_extract,
    Input.kind?]
  split
  · rfl
  · next hlt =>
    rw [Array.getElem?_eq_none (by omega)]

omit hc in
/-- An unmatched closing brace is reported and passed. -/
theorem guardable_unmatchedBrace (input : Input) (s : State) :
    Adds input (Guardable input) (do report (.refused .unmatchedBrace); bump) s := by
  intro h start new hadd
  have hgrows : Grows anyLeaf (do report (.refused .unmatchedBrace); bump) := .seq .report .bump
  obtain ⟨more, hmore, -⟩ := hgrows input s h start new hadd
  refine ⟨more, hmore, .inr ?_⟩
  have hw := hadd.wrapped_le
  show (after bump input _).wrapped < (after bump input _).problems.size
  rw [(after_bump _ _).1, (after_bump _ _).2]
  show s.wrapped < (s.problems.push _).size
  rw [Array.size_push]
  omega

/-- `plainStatement` adds nothing but a node, or reports a problem at last. -/
theorem guardable_plainStatement (input : Input) (s : State) :
    Adds input (Guardable input) (plainStatement call) s := by
  have hexpr := (grows_exprStmt hc).guardable input s
  have hdecl := guardable_declaration hc input s
  refine Adds.look rfl ?_
  have hhead := head?_ahead (lookaheadLimit + 2) input s
  generalize hkinds : answer (ahead (lookaheadLimit + 3)) input s = kinds
  rw [show lookaheadLimit + 2 + 1 = lookaheadLimit + 3 from rfl, hkinds] at hhead
  dsimp only
  split
  · split
    · split
      · exact hexpr
      · exact hdecl
    · split
      · exact hexpr
      · exact hdecl
    · exact hdecl
  · split
    · exact hexpr
    · exact hdecl
  · exact hdecl
  · exact hdecl
  · exact hdecl
  · exact hdecl
  · exact hdecl
  · exact hdecl
  · split
    · exact hdecl
    · exact hexpr
  · next hif => exact (adds_ifStmt hc (hhead.symm.trans hif)).mono fun _ _ h => .inl h
  · next hwhile =>
    exact (adds_conditionalNode hc rfl (hhead.symm.trans hwhile) (by decide)).mono
      fun _ _ h => .inl h.1
  · exact (grows_doStmt hc).guardable input s
  · next hfor => exact (adds_forStmt hc (hhead.symm.trans hfor)).mono fun _ _ h => .inl h
  · next hforeach =>
    exact (adds_foreachStmt hc (hhead.symm.trans hforeach)).mono fun _ _ h => .inl h
  · next hswitch => exact (adds_switchStmt hc (hhead.symm.trans hswitch)).mono fun _ _ h => .inl h
  · exact (grows_tryStmt hc).guardable input s
  · exact (grows_returnStmt hc).guardable input s
  · exact grows_jumpStmt.guardable input s
  · exact grows_jumpStmt.guardable input s
  · exact (grows_exprListStmt hc rfl).guardable input s
  · exact (grows_echoTag hc).guardable input s
  · exact grows_globalStmt.guardable input s
  · split
    · exact (grows_exprListStmt hc rfl).guardable input s
    · exact hexpr
  · split
    · exact (grows_namespaceDecl hc).guardable input s
    · exact hexpr
  · exact guardable_useStmt hc input s
  · exact (grows_constStmt hc).guardable input s
  · exact (grows_declareStmt hc).guardable input s
  · exact hc.block.guardable input s
  · next hsemi =>
    have hsign : Adds input (fun more _ => Neat input anyLeaf more ∧ Led input.kind? more) bump
        { s with builder := s.builder.start .emptyStmt } :=
      Adds.bump_led (hhead.symm.trans hsemi) (by decide)
    exact (hsign.led rfl).mono fun _ _ h => .inl h.1
  · exact guardable_unmatchedBrace input s
  · exact hexpr

end Rules

/-! ## Whole parses -/

/-- The rules have their effects.  An operand is one tree or missing, except for rules that are so
close to their end that operands and expressions add no leaf. -/
structure RulesHold (call : Rules) : Prop where
  grows : RulesGrow call
  primary : Supplies True operandLeaf (call .primary) ∨ Grows noLeaf (call .primary) ∧ Sparse call
  unary : Supplies True operandLeaf (call .unary) ∨ Sparse call

theorem rulesHold_cutOff : RulesHold fun _ => cutOff where
  grows rule := by
    cases rule with
    | statement | block => exact GrowsNode.cutOff
    | expression _ | unary | primary | arguments => exact Grows.cutOff
    | intersection => exact Fronts.cutOff
    | useClause => exact calm_cutOff
  primary := .inr ⟨.cutOff, .cutOff, fun _ => .cutOff⟩
  unary := .inr ⟨.cutOff, fun _ => .cutOff⟩

theorem Sparse.grows_expression {call : Rules} (hc : RulesGrow call) (h : Sparse call) (power : Nat) :
    Grows noLeaf (expression call power) :=
  Grammar.grows_expression hc h.1.supplies (.inr ⟨fun _ => id, h⟩) power

/-- `Rule.body` has its effect, if the rules that it calls do. -/
theorem RulesHold.body {call : Rules} (h : RulesHold call) : RulesHold fun rule => rule.body call where
  grows rule := by
    have hc := h.grows
    cases rule with
    | statement => exact grows_guarded (guardable_plainStatement hc)
    | block => exact grows_block hc
    | expression power =>
      rcases h.unary with hunary | hsparse
      · exact grows_expression hc hunary (.inl trivial) power
      · exact (hsparse.grows_expression hc power).of_noLeaf
    | unary => exact (supplies_unary hc hc.primary.supplies).grows
    | primary => exact (supplies_primary hc).grows
    | arguments => exact grows_arguments hc
    | useClause => exact calm_useClause hc
    | intersection => exact fronts_intersection hc
  primary := .inl (supplies_primary h.grows)
  unary := by
    rcases h.primary with hprimary | ⟨hprimary, hsparse⟩
    · exact .inl (supplies_unary h.grows hprimary)
    · refine .inr ⟨(supplies_unary h.grows hprimary.supplies).grows, fun power => ?_⟩
      exact hsparse.grows_expression h.grows power

/-- `Rule.run` has the effects of the rules, however deep they recur. -/
theorem rulesHold_run (depth : Nat) : RulesHold (Rule.run depth) := by
  induction depth with
  | zero => exact rulesHold_cutOff
  | succ depth ih => exact ih.body

/-- `statement` adds one node, and leaves no problem outside of an error node. -/
theorem adds_statement (depth : Nat) (input : Input) (s : State) :
    Adds input (fun ts s' => Settled input ts s' ∧
      (s.position < input.symbols.size → ∀ t ∈ ts, Leafy t)) (statement (Rule.run depth)) s :=
  adds_guarded (guardable_plainStatement (rulesHold_run depth).grows) input s

/-- `statements` of a program are nodes with leaves. -/
theorem fronts_statements (depth : Nat) : Fronts noLeaf (statements depth) := by
  refine .repeating fun input s => Adds.look rfl ?_
  split
  · exact Fronts.pure input s
  · next hend =>
    have hlt : s.position < input.symbols.size := by
      cases hseen : input.kind? s.position with
      | none => simp [hseen] at hend
      | some kind => exact lt_size_of_kind? hseen
    exact (adds_statement depth input s).thenPure.mono fun _ _ h => ⟨h.1.1.neat, h.2 hlt⟩

/-- The state before the first statement. -/
def startState : State := { builder := Tree.Builder.start {} .program }

/-- The state after all statements. -/
def finalState (input : Input) : State := after (statements (depthBound input)) input startState

/-- A program to which nothing has been added. -/
def rootHole : Hole := ⟨.program, #[], [], #[], 0⟩

theorem added_startState (input : Input) : Added input rootHole 0 [] startState where
  frames := rfl
  start_le := Nat.le_refl 0
  le_size := Nat.zero_le _
  leaves := rfl
  orderly := forall_mem_nil _
  noted := by
    have hnone (j : Nat) (p : Problem) : startState.problems[j]? ≠ some p := by
      simp [startState]
    exact ⟨fun j p h => absurd h (hnone j p), fun j p _ h => absurd h (hnone j p),
      fun j p h => absurd h (hnone j p), fun i _ p _ _ _ h => absurd h (hnone i p), Nat.le_refl 0,
      fun j p _ _ h => absurd h (hnone j p)⟩

/-- `parse` answers the program with what was added to it. -/
theorem tree_parse {input : Input} {ts : List Tree}
    (hts : Added input rootHole 0 ts (finalState input)) :
    (parse input).tree = .branch .program ts := by
  show ((finalState input).builder.finish.2).getD _ = _
  rw [Tree.Builder.finish, hts.frames, rootHole]
  simp

/-- `parse` answers what the statements add to an empty program. -/
theorem parse_added (input : Input) : ∃ ts, (parse input).tree = .branch .program ts ∧
    Added input rootHole 0 ts (finalState input) ∧ Front input noLeaf ts := by
  obtain ⟨ts, hts, hfront⟩ :=
    fronts_statements (depthBound input) input _ _ _ _ (added_startState input)
  exact ⟨ts, tree_parse hts, hts, hfront⟩

/-- `parse` answers a tree whose leaves are the positions passed, in order, with braces and
parentheses in order at every node. -/
theorem parse_spec (input : Input) : (finalState input).position ≤ input.symbols.size ∧
    (parse input).tree.leaves = List.range (finalState input).position ∧
      (parse input).tree.Every (Orderly input.kind?) := by
  obtain ⟨ts, htree, hts, -⟩ := parse_added input
  refine ⟨hts.le_size, ?_, ?_⟩
  · have hleaves := hts.leaves
    rw [Nat.sub_zero, ← range_eq_range'] at hleaves
    rw [htree, Tree.leaves_branch, hleaves]
  · rw [htree, Tree.every_branch]
    exact ⟨trivial, hts.orderly⟩

/-- `parse` reports problems in the order of their positions. -/
theorem parse_problems_ordered (input : Input) :
    (parse input).problems.toList.Pairwise fun p q => p.position ≤ q.position := by
  obtain ⟨ts, -, hts, -⟩ := parse_added input
  rw [pairwise_iff_getElem]
  intro i j hi hj hij
  have hget {k : Nat} (hk : k < (parse input).problems.toList.length) :
      (finalState input).problems[k]? = some (parse input).problems.toList[k] := by
    rw [← Array.getElem?_toList]
    exact getElem?_eq_getElem hk
  exact hts.noted.ordered i j _ _ (Nat.zero_le i) (Nat.le_of_lt hij) (hget hi) (hget hj)

/-- Outside of error nodes, all nodes of a parsed tree are `Formed`. -/
theorem parse_formed (input : Input) : (parse input).tree.Sound (Formed input.kind?) := by
  obtain ⟨ts, htree, -, hfront⟩ := parse_added input
  have hnodes := bare_noLeaf.mp hfront.neat.bare
  rw [htree]
  exact Tree.sound_branch.mpr
    (.inr ⟨fun t ht => ⟨hnodes t ht, hfront.leafy t ht⟩, hfront.neat.sound⟩)

end CodeLayout.Grammar
