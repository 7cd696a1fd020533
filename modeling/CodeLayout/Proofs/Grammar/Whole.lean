import CodeLayout.Proofs.Grammar.Forms

/-!
# Whole trees

Every rule of the grammar adds whole trees where it reports nothing (`rulesForm_run`): a statement is
one node then, and its head and its body are told apart by its signs (`CutsAt`).  So the tree of a
source without syntax problems is whole (`Parsed.whole_of_errors`).
-/

namespace CodeLayout

open List
open CodeLayout.Tree (Cut Whole braces labelEnds)

namespace Grammar

section Rules

variable {call : Rules} {A : TokenKind → Prop}

variable {kind : NodeKind} {input : Input} {s : State} {α : Type} {p : Parse α} {ts us : List Tree}
  {power : Power} {kinds : List TokenKind} {R : List Tree → Prop} {t : Tree}

section

variable (hc : RulesForm call)
include hc

/-! ## Statements -/

theorem yields_statementsUntil (terminators : List TokenKind) :
    Yields A (statementsUntil call terminators) :=
  .repeating (.bind .atEnd fun _ => .cond .checkAny .pure (.seq hc.statement.yields .pure))

theorem yieldsNode_block : YieldsNode (block call) :=
  yieldsNode_braced (yields_statementsUntil hc _) fun _ _ h => h

/-- `body` is one statement; the form with a colon is reported. -/
theorem yieldsNode_body : YieldsNode (body call) := by
  intro input s
  refine .look rfl (.ite (fun _ => ?_) fun _ => hc.statement input s)
  exact .of_first .report (Forms.bump.mono fun _ _ => trivial)

theorem yieldsNode_exprStmt : YieldsNode (exprStmt call) := .node rfl (.seq hc.expr.any .expectEnd)

/-! ### Heads of control statements -/

omit hc in
/-- The first leaf of one of the kinds, with what is known of the trees behind it. -/
def CutsAt (input : Input) (kinds : List TokenKind) (R : List Tree → Prop) (ts : List Tree) : Prop :=
  ∃ front sign behind, Cut input.kind? kinds ts front sign behind ∧ R behind

omit hc in
theorem CutsAt.prepend (hts : Bare input (· ∉ kinds) ts) (h : CutsAt input kinds R us) :
    CutsAt input kinds R (ts ++ us) := by
  obtain ⟨front, sign, behind, hcut, hR⟩ := h
  refine ⟨ts ++ front, sign, behind, ⟨?_, hcut.sign, ?_⟩, hR⟩
  · rw [hcut.eq, append_assoc]
  · exact forall_mem_append.mpr ⟨hts.not_isOneOf fun _ hmem h => h hmem, hcut.front⟩

omit hc in
theorem cutsAt_sign {kind : TokenKind} (ht : t.IsSign input.kind? kind) (hmem : kind ∈ kinds)
    (hR : R us) : CutsAt input kinds R ([t] ++ us) :=
  ⟨[], t, us, ⟨rfl, ⟨kind, hmem, ht⟩, nofun⟩, hR⟩

/-- From a closing parenthesis on there is only a body. -/
theorem forms_closeBody (input : Input) (s : State) :
    Forms input (CutsAt input [.parenEnd] One) (do expect .parenEnd; body call) s := by
  refine Forms.expect.bind (yieldsNode_body hc input _) ?_
  rintro _ us ⟨t, rfl, ht⟩ hus
  exact cutsAt_sign ht (by decide) hus

omit hc in
/-- `CutsAt` with what stands in front of a body, without a closing parenthesis of its own. -/
theorem Forms.headed {f : α → Parse Unit} (hp : Forms input (Bare input (· ∉ kinds)) p s)
    (hf : ∀ a s, Forms input (CutsAt input kinds R) (f a) s) :
    Forms input (CutsAt input kinds R) (p >>= f) s :=
  hp.bind (hf _ _) fun _ _ hts hus => hus.prepend hts

/-- An expression ends no condition. -/
theorem RulesForm.expr_open : Yields (· ∉ [TokenKind.parenEnd]) call.expr :=
  hc.expr.mono (innerLeaf.not_mem (by decide))

omit hc in
/-- A keyword and a head that starts with a parenthesis, and ends with the next closing one in front
of a body. -/
theorem whole_of_head (hts : ts.length ≤ 1) (ht : t.IsSign input.kind? .parenBegin)
    (hus : CutsAt input [.parenEnd] One us)
    (hkind : ∀ kindOf cs, (∃ word rest front closing body, cs = word :: rest ∧
      Cut kindOf [.parenEnd] rest front closing [body]) → Whole kindOf kind cs) :
    Whole input.kind? kind (ts ++ ([t] ++ us)) := by
  apply hkind
  match ts with
  | [] =>
    -- there was no keyword to pass, and the parenthesis stands in its place
    obtain ⟨front, sign, _, hcut, body, rfl, -⟩ := hus
    exact ⟨t, us, front, sign, body, rfl, hcut⟩
  | [word] =>
    obtain ⟨front, sign, _, hcut, body, rfl, -⟩ := hus.prepend (bare_sign ht (by decide))
    exact ⟨word, [t] ++ us, front, sign, body, rfl, hcut⟩

/-- A keyword, a condition and a body. -/
theorem yieldsNode_conditional
    (hkind : ∀ kindOf cs, (∃ word rest front closing body, cs = word :: rest ∧
      Cut kindOf [.parenEnd] rest front closing [body]) → Whole kindOf kind cs) :
    YieldsNode (node kind (conditional call)) := by
  intro input s
  have hrest : ∀ s, Forms input (fun ts => ∃ t us, ts = [t] ++ us ∧
      t.IsSign input.kind? .parenBegin ∧ CutsAt input [.parenEnd] One us)
      (do call.condition; body call) s := by
    refine fun s => (forms_condition hc input s).bind (yieldsNode_body hc input _) ?_
    rintro _ vs ⟨opening, us, closing, rfl, hopening, hus, hclosing⟩ hvs
    refine ⟨opening, us ++ ([closing] ++ vs), by simp, hopening, ?_⟩
    exact (cutsAt_sign hclosing (by decide) hvs).prepend (hus.mono (innerLeaf.not_mem (by decide)))
  refine Forms.node (Forms.bump.bind (hrest _) ?_) fun cs h => h
  rintro ts _ ⟨hts, -⟩ ⟨t, us, rfl, ht, hus⟩
  exact whole_of_head hts ht hus hkind

theorem yields_conditional : Yields anyLeaf (conditional call) :=
  .seq .bump <| .seq (yields_condition hc) (yieldsNode_body hc).yields

/-- The last alternative has a keyword and a body, and nothing else. -/
theorem yieldsNode_elseClause : YieldsNode (node .elseClause (do bump; body call)) := by
  refine fun input s => Forms.node (Forms.bump.bind (yieldsNode_body hc input _) ?_) fun cs h => h
  rintro ts _ ⟨hts, -⟩ ⟨t, rfl, -⟩
  show (ts ++ [t]).length ≤ 2
  rw [length_append, length_singleton]
  omega

theorem yieldsNode_ifStmt : YieldsNode (ifStmt call) := by
  have helseIf : YieldsNode (node .elseIfClause (conditional call)) :=
    yieldsNode_conditional hc fun _ _ h => h
  refine .node rfl (.seq (yields_conditional hc) <| .seq (.repeating ?_) ?_)
  · exact .cond .check (.seq helseIf.yields .pure) .pure
  · exact .cond .check (yieldsNode_elseClause hc).yields .pure

theorem yieldsNode_doStmt : YieldsNode (doStmt call) :=
  .node rfl (.seq .bump <| .seq hc.statement.yields <| .seq (.expect trivial) <|
    .seq (yields_condition hc) .expectEnd)

/-- `forPart` reads the parts of the head of a counting loop that end with a semicolon. -/
theorem yields_forPart : Yields (· ∉ [TokenKind.parenEnd]) (forPart call .semiColon) := by
  refine .optional .check ?_ <| .expect (by decide)
  exact .commaSeparated (by decide) hc.expr_open

/-- `forPart` reads the last part of the head of a counting loop, and the body comes behind it. -/
theorem forms_lastPart (input : Input) (s : State) :
    Forms input (CutsAt input [.parenEnd] One) (do forPart call .parenEnd; body call) s := by
  have hpart : ∀ s, Forms input (fun ts => ∃ us closing, ts = us ++ [closing] ∧
      Bare input (· ∉ [TokenKind.parenEnd]) us ∧ closing.IsSign input.kind? .parenEnd)
      (forPart call .parenEnd) s := by
    intro s
    have hclose : ∀ s, Forms input (fun ts => ∃ us closing, ts = us ++ [closing] ∧
        Bare input (· ∉ [TokenKind.parenEnd]) us ∧ closing.IsSign input.kind? .parenEnd)
        (expect .parenEnd) s := by
      refine fun s => Forms.expect.mono ?_
      rintro _ ⟨closing, rfl, hclosing⟩
      exact ⟨[], closing, rfl, bare_nil, hclosing⟩
    have hexprs : Yields (· ∉ [TokenKind.parenEnd]) (commaSeparated call.expr) :=
      .commaSeparated (by decide) hc.expr_open
    refine .look rfl (.ite (fun _ => ?_) fun _ => hclose s)
    refine (hexprs input s).bind (hclose _) ?_
    rintro ts _ hts ⟨us, closing, rfl, hus, hclosing⟩
    exact ⟨ts ++ us, closing, by rw [append_assoc], bare_append.mpr ⟨hts, hus⟩, hclosing⟩
  refine (hpart s).bind (yieldsNode_body hc input _) ?_
  rintro _ vs ⟨us, closing, rfl, hus, hclosing⟩ hvs
  rw [append_assoc]
  exact (cutsAt_sign hclosing (by decide) hvs).prepend hus

theorem forms_forStmt (hseen : input.kind? s.position = some .forKw) :
    Forms input One (forStmt call) s := by
  have hopen : Yields (· ∉ [TokenKind.parenEnd]) (expect .parenBegin) := .expect (by decide)
  have hbump : Forms input (Bare input (· ∉ [TokenKind.parenEnd])) bump
      { s with builder := s.builder.start .forStmt } := .bump_bare hseen (by decide)
  refine Forms.node (Q := CutsAt input [.parenEnd] One) ?_ ?_
  · refine hbump.headed fun _ s => .headed (hopen input s) fun _ s => ?_
    refine .headed (yields_forPart hc input s) fun _ s => ?_
    exact .headed (yields_forPart hc input s) fun _ s => forms_lastPart hc input s
  · rintro cs ⟨front, sign, _, hcut, body, rfl, hbody⟩
    exact ⟨front, sign, body, hcut, hbody⟩

theorem yields_foreachTarget : Yields innerLeaf (foreachTarget call) :=
  .cond .check (.node rfl (.seq .bump (yields_operand hc).any)) (yields_operand hc)

theorem yieldsNode_foreachStmt : YieldsNode (foreachStmt call) := by
  intro input s
  have htarget : Yields (· ∉ [TokenKind.parenEnd]) (foreachTarget call) :=
    (yields_foreachTarget hc).mono (innerLeaf.not_mem (by decide))
  have has : Yields (· ∉ [TokenKind.parenEnd]) (expect .asKw) := .expect (by decide)
  have harrow : Yields (· ∉ [TokenKind.parenEnd]) (eat .doubleArrow) := .eat (by decide)
  have hrest : ∀ s, Forms input (CutsAt input [.parenEnd] One) (do
      call.expr; expect .asKw; foreachTarget call
      if ← eat .doubleArrow then foreachTarget call
      expect .parenEnd
      body call) s := by
    refine fun s => .headed (hc.expr_open input s) fun _ s => .headed (has input s) fun _ s => ?_
    refine .headed (htarget input s) fun _ s => .headed (harrow input s) fun _ s => ?_
    refine .ite (fun _ => ?_) fun _ => forms_closeBody hc input s
    exact .headed (htarget input s) fun _ => forms_closeBody hc input
  have hhead : ∀ s, Forms input (fun ts => ∃ t us, ts = [t] ++ us ∧
      t.IsSign input.kind? .parenBegin ∧ CutsAt input [.parenEnd] One us) (do
      expect .parenBegin; call.expr; expect .asKw; foreachTarget call
      if ← eat .doubleArrow then foreachTarget call
      expect .parenEnd
      body call) s := by
    refine fun s => Forms.expect.bind (hrest _) ?_
    rintro _ us ⟨t, rfl, ht⟩ hus
    exact ⟨t, us, rfl, ht, hus⟩
  refine Forms.node (Forms.bump.bind (hhead _) ?_) fun cs h => h
  rintro ts _ ⟨hts, -⟩ ⟨t, us, rfl, ht, hus⟩
  exact whole_of_head hts ht hus fun _ _ h => h

/-- `caseClause` adds a word, a label that ends with its first colon or semicolon, and statements
behind it. -/
theorem forms_caseClause {kind : TokenKind} (hseen : input.kind? s.position = some kind)
    (hmem : kind ∈ Tree.caseWords) :
    Forms input One (caseClause call) s := by
  have hlabel : Yields (· ∉ labelEnds) call.expr :=
    hc.expr.mono (innerLeaf.not_mem (by decide))
  have hrest : ∀ s, Forms input (CutsAt input labelEnds fun us => ∀ t ∈ us, t.isNode = true) (do
      expectAny [.colon, .semiColon]
      statementsUntil call [.caseKw, .defaultKw, .blockEnd]) s := by
    intro s
    refine Forms.expectAny.bind (yields_statementsUntil (A := noLeaf) hc _ input _) ?_
    rintro _ us ⟨t, kind, rfl, ht, hmem⟩ hus
    exact cutsAt_sign ht hmem (bare_noLeaf.mp hus)
  have hwhole (ts us : List Tree) (hts : ∃ t, ts = [t] ∧ t.IsSign input.kind? kind)
      (hus : CutsAt input labelEnds (fun us => ∀ t ∈ us, t.isNode = true) us) :
      Whole input.kind? .caseClause (ts ++ us) := by
    obtain ⟨word, rfl, hword⟩ := hts
    obtain ⟨label, sign, items, hcut, hitems⟩ := hus
    have hends : kind ∉ labelEnds :=
      (by decide : ∀ kind ∈ Tree.caseWords, kind ∉ labelEnds) kind hmem
    have hfront := (bare_sign hword (A := (· ∉ labelEnds)) hends).not_isOneOf
      fun _ hmem h => h hmem
    refine ⟨word, label, sign, items, ⟨?_, hcut.sign, ?_⟩, ⟨kind, hmem, hword⟩, hitems⟩
    · rw [hcut.eq]
      rfl
    · exact forall_mem_cons.mpr ⟨hfront word (.head _), hcut.front⟩
  refine Forms.node (Q := Whole input.kind? .caseClause) ?_ fun cs h => h
  generalize hs : { s with builder := s.builder.start .caseClause } = s'
  have hseen' : input.kind? s'.position = some kind := by rw [← hs]; exact hseen
  rcases after_eat .caseKw input s' with ⟨-, hanswer, hafter⟩ | ⟨-, hanswer, hafter⟩
  · -- the first word is eaten, and an expression follows
    have heat : Forms input (fun ts => ∃ t, ts = [t] ∧ t.IsSign input.kind? kind) (eat .caseKw) s' := by
      unfold Forms
      rw [hafter]
      exact Forms.bump_seen hseen'
    refine heat.bind ?_ hwhole
    rw [hanswer]
    exact .headed (hlabel input _) fun _ => hrest
  · -- the other one is left by `eat`, and passed as any symbol would be
    refine .look hafter ?_
    rw [hanswer]
    exact (Forms.bump_seen hseen').bind (hrest _) hwhole

theorem yieldsNode_switchStmt : YieldsNode (switchStmt call) := by
  have hcases : Yields noLeaf (repeating do
      if ← checkAny [.caseKw, .defaultKw] then
        caseClause call
        return true
      return false) := by
    refine .repeating fun input s => .look rfl (.ite (fun hmem => ?_) fun _ => Yields.pure input s)
    obtain ⟨kind, hkind, hmem⟩ := seen_of_checkAny hmem
    refine (forms_caseClause hc hkind hmem).bind (Yields.pure (A := noLeaf) input _) ?_
    rintro _ us ⟨t, rfl, ht⟩ hus
    exact bare_append.mpr ⟨forall_mem_singleton.mpr (.inl ht), hus⟩
  have hbody : YieldsNode (node .switchBody (do
      expect .blockBegin
      repeating do
        if ← checkAny [.caseKw, .defaultKw] then
          caseClause call
          return true
        return false
      expect .blockEnd)) := yieldsNode_braced hcases fun _ _ h => h
  exact .node rfl (.seq .bump <| .seq (yields_condition hc) hbody.yields)

theorem yields_catchClause : Yields A (catchClause call) :=
  .node rfl (.seq .bump <| .seq (.expect trivial) <| .seq (.expect trivial) <|
    .seq (.whileEating trivial (.expect trivial)) <| .seq (.skip trivial) <| .seq (.expect trivial)
    hc.block.yields)

theorem yieldsNode_tryStmt : YieldsNode (tryStmt call) := by
  refine .node rfl (.seq .bump <| .seq hc.block.yields <| .seq (.repeating ?_) ?_)
  · exact .cond .check (.seq (yields_catchClause hc) .pure) .pure
  · exact .cond .check (.node rfl (.seq .bump hc.block.yields)) .pure

theorem yieldsNode_returnStmt : YieldsNode (returnStmt call) :=
  .node rfl (.seq .bump <| .cond yields_atExpressionEnd (.seq hc.expr.any .expectEnd) .expectEnd)

theorem yieldsNode_exprListStmt (hkind : free kind = true) : YieldsNode (exprListStmt call kind) :=
  .node hkind (.seq .bump <| .seq (.commaSeparated trivial hc.expr.any) .expectEnd)

theorem yieldsNode_echoTag : YieldsNode (echoTag call) :=
  .node rfl (.seq .bump <| .seq (.commaSeparated trivial hc.expr.any) <| .skip trivial)

theorem yieldsNode_namespaceDecl : YieldsNode (namespaceDecl call) :=
  .node rfl (.seq .bump <| .seq (.skip trivial) <| .cond .check hc.block.yields .expectEnd)

theorem yieldsNode_useClause : YieldsNode (useClause call) := by
  have hgroup : YieldsNode (node .groupUseList do
      expect .blockBegin; itemsUntil .blockEnd (call .useClause); expect .blockEnd) :=
    EndsWith.node .blockEnd rfl (by decide) (.seq (.expect trivial) <|
      .seq (.itemsUntil trivial hc.useClause) .expect)
  refine .node rfl (.seq yields_useType <| .seq (.expect trivial) ?_)
  exact .optional (.eat trivial) hgroup.yields <| .cond (.eat trivial) yields_expectMemberName.any
    .pure

theorem yieldsNode_useStmt : YieldsNode (useStmt call) :=
  .node rfl (.seq .bump <| .seq yields_useType <| .seq (.commaSeparated trivial hc.useClause)
    .expectEnd)

theorem yieldsNode_constStmt : YieldsNode (constStmt call) :=
  .node rfl (.seq .bump <| .seq (.commaSeparated trivial (yields_constElement hc)) .expectEnd)

theorem yieldsNode_declareStmt : YieldsNode (declareStmt call) := by
  have hdirective : Yields anyLeaf (directive call) :=
    .seq (.expect trivial) <| .seq (.expect trivial) hc.expr.any
  refine .node rfl (.seq .bump <| .seq (.expect trivial) ?_)
  exact .seq (.commaSeparated trivial hdirective) <| .seq (.expect trivial) <|
    .cond .check hc.statement.yields .expectEnd

/-- `plainStatement` that reports nothing is one node. -/
theorem yieldsNode_plainStatement : YieldsNode (plainStatement call) := by
  intro input s
  have hwhile : YieldsNode (node .whileStmt (conditional call)) :=
    yieldsNode_conditional hc fun _ _ h => h
  have hexpr := yieldsNode_exprStmt hc input s
  have hdecl := yieldsNode_declaration hc input s
  refine .look rfl ?_
  -- a counting loop needs to know its keyword: it is in front of the first closing parenthesis
  have hhead := head?_ahead (lookaheadLimit + 2) input s
  generalize hkinds : answer (ahead (lookaheadLimit + 3)) input s = kinds
  rw [show lookaheadLimit + 2 + 1 = lookaheadLimit + 3 from rfl, hkinds] at hhead
  dsimp only
  split
  · split
    · exact .ite (fun _ => hexpr) fun _ => hdecl
    · exact .ite (fun _ => hexpr) fun _ => hdecl
    · exact hdecl
  · exact .ite (fun _ => hexpr) fun _ => hdecl
  · exact hdecl
  · exact hdecl
  · exact hdecl
  · exact hdecl
  · exact hdecl
  · exact hdecl
  · exact .ite (fun _ => hdecl) fun _ => hexpr
  · exact yieldsNode_ifStmt hc input s
  · exact hwhile input s
  · exact yieldsNode_doStmt hc input s
  · next hfor => exact forms_forStmt hc (hhead.symm.trans hfor)
  · exact yieldsNode_foreachStmt hc input s
  · exact yieldsNode_switchStmt hc input s
  · exact yieldsNode_tryStmt hc input s
  · exact yieldsNode_returnStmt hc input s
  · exact yieldsNode_jumpStmt input s
  · exact yieldsNode_jumpStmt input s
  · exact yieldsNode_exprListStmt hc rfl input s
  · exact yieldsNode_echoTag hc input s
  · exact yieldsNode_globalStmt input s
  · exact .ite (fun _ => yieldsNode_exprListStmt hc rfl input s) fun _ => hexpr
  · exact .ite (fun _ => yieldsNode_namespaceDecl hc input s) fun _ => hexpr
  · exact yieldsNode_useStmt hc input s
  · exact yieldsNode_constStmt hc input s
  · exact yieldsNode_declareStmt hc input s
  · exact hc.block input s
  · exact YieldsNode.node rfl .bump input s
  · exact .of_first .report (Forms.bump.mono fun _ _ => trivial)
  · exact hexpr

theorem yieldsNode_statement : YieldsNode (statement call) := (yieldsNode_plainStatement hc).guarded

end

/-- `Rule.body` adds whole trees, if the rules that it calls do. -/
theorem RulesForm.body (hc : RulesForm call) (rule : Rule) (input : Input) (s : State) :
    Forms input (rule.adds input) (rule.body call) s := by
  cases rule with
  | statement => exact yieldsNode_statement hc input s
  | block => exact yieldsNode_block hc input s
  | expression power => exact yields_expression hc power input s
  | unary => exact yields_unary hc input s
  | primary => exact yields_primary hc input s
  | arguments => exact yieldsNode_arguments hc input s
  | useClause => exact yieldsNode_useClause hc input s
  | intersection => exact yields_intersection hc input s

end Rules

/-! ## Whole parses -/

theorem rulesForm_run (depth : Nat) : RulesForm (Rule.run depth) := by
  induction depth with
  | zero =>
    -- a rule that is cut off is not clean
    exact fun _ _ _ => .of_not_clean not_clean_cutOff
  | succ depth ih => exact ih.body

theorem yields_statements (depth : Nat) : Yields noLeaf (statements depth) :=
  .repeating (.cond .atEnd .pure (.seq (yieldsNode_statement (rulesForm_run depth)).yields .pure))

/-- Without problems, every node of a parsed tree is `Whole`. -/
theorem parse_whole {input : Input} (h : (parse input).problems = #[]) :
    (parse input).tree.Every (Whole input.kind?) := by
  have hclean : Clean (finalState input) := ⟨h, (parse_complete input).2⟩
  obtain ⟨-, hadd⟩ := yields_statements (depthBound input) input startState hclean
  obtain ⟨ts, hts, hbare⟩ := hadd ⟨.program, #[]⟩ [] [] ⟨rfl, nofun⟩
  obtain ⟨ts', htree, hts', -⟩ := parse_added input
  -- both speak of the children of the root frame
  obtain rfl : ts = ts' := by
    have hframes := hts.frames.symm.trans hts'.frames
    simpa [rootHole] using hframes
  rw [htree, Tree.every_branch]
  exact ⟨bare_noLeaf.mp hbare, hts.whole⟩

end Grammar

/-! ## Parsed sources -/

namespace Parsed

section Relabel

open CodeLayout.Tree (relabelAll relabelAll_eq_map)

variable {tokens : Array Token} {f : Nat → Nat × Nat} {kinds : List TokenKind} {t : Tree}
  {cs : List Tree}

theorem isNode_of_mem_relabelAll (h : ∀ t ∈ cs, t.isNode = true) :
    ∀ t ∈ relabelAll f cs, t.isNode = true :=
  Tree.forall_mem_relabelAll.mpr fun t ht => (Tree.isNode_relabel f t).trans (h t ht)

variable (hf : Labels tokens f)
include hf

theorem isOneOf_relabel (h : t.IsOneOf (input tokens).kind? kinds) :
    (t.relabel f).IsOneOf (kindOf tokens) kinds := by
  obtain ⟨kind, hmem, hsign⟩ := h
  exact ⟨kind, hmem, isSign_relabel hf hsign⟩

theorem not_isOneOf_relabelAll (hkinds : TokenKind.eof ∉ kinds)
    (h : ∀ t ∈ cs, ¬ t.IsOneOf (input tokens).kind? kinds) :
    ∀ t ∈ relabelAll f cs, ¬ t.IsOneOf (kindOf tokens) kinds := by
  refine Tree.forall_mem_relabelAll.mpr ?_
  rintro u hu ⟨kind, hmem, hsign⟩
  -- a leaf can turn into a sign by relabelling only if that is the end of the source
  refine h u hu ⟨kind, hmem, isSign_of_relabel hf ?_ hsign⟩
  rintro rfl
  exact hkinds hmem

theorem cut_relabelAll (hkinds : TokenKind.eof ∉ kinds) {front behind : List Tree}
    (h : Cut (input tokens).kind? kinds cs front t behind) :
    Cut (kindOf tokens) kinds (relabelAll f cs) (relabelAll f front) (t.relabel f)
      (relabelAll f behind) := by
  refine ⟨?_, isOneOf_relabel hf h.sign, not_isOneOf_relabelAll hf hkinds h.front⟩
  rw [h.eq]
  simp [relabelAll_eq_map]

/-- A node that is `Whole` is so over the tokens that its leaves stand for. -/
theorem whole_relabelAll {kind : NodeKind} (h : Whole (input tokens).kind? kind cs) :
    Whole (kindOf tokens) kind (relabelAll f cs) := by
  have hparen {rest front : List Tree} {closing body : Tree}
      (hcut : Cut (input tokens).kind? [.parenEnd] rest front closing [body]) :
      Cut (kindOf tokens) [.parenEnd] (relabelAll f rest) (relabelAll f front)
        (closing.relabel f) [body.relabel f] := by
    have := cut_relabelAll hf (by decide) hcut
    rwa [relabelAll_eq_map f [body], map_singleton] at this
  cases kind
  case program => exact isNode_of_mem_relabelAll h
  case block | classBody | switchBody =>
    obtain ⟨opening, items, closing, rfl, hopening, hclosing, hitems⟩ := h
    refine ⟨opening.relabel f, relabelAll f items, closing.relabel f, ?_,
      isSign_relabel hf hopening, isSign_relabel hf hclosing, isNode_of_mem_relabelAll hitems⟩
    simp [relabelAll_eq_map]
  case elseIfClause | whileStmt | foreachStmt =>
    obtain ⟨word, rest, front, closing, body, rfl, hcut⟩ := h
    exact ⟨word.relabel f, _, _, _, _, by rw [relabelAll], hparen hcut⟩
  case elseClause =>
    show (relabelAll f cs).length ≤ 2
    rw [relabelAll_eq_map, length_map]
    exact h
  case forStmt =>
    obtain ⟨front, closing, body, hcut, hbody⟩ := h
    exact ⟨_, _, _, hparen hcut, (Tree.isNode_relabel f body).trans hbody⟩
  case caseClause =>
    obtain ⟨word, label, sign, items, hcut, hword, hitems⟩ := h
    have hcut := cut_relabelAll hf (by decide) hcut
    rw [relabelAll] at hcut
    exact ⟨_, _, _, _, hcut, isOneOf_relabel hf hword, isNode_of_mem_relabelAll hitems⟩
  case groupUseList | paramList | argList | arrayLiteral | listExpr | closureUse | attributeGroup =>
    obtain ⟨front, closing, rfl, hclosing⟩ := h
    refine ⟨relabelAll f front, closing.relabel f, ?_, isOneOf_relabel hf hclosing⟩
    simp [relabelAll_eq_map]
  case traitUseBody =>
    obtain ⟨opening, rules, closing, rfl, hopening, hclosing⟩ := h
    refine ⟨opening.relabel f, relabelAll f rules, closing.relabel f, ?_,
      isSign_relabel hf hopening, isSign_relabel hf hclosing⟩
    simp [relabelAll_eq_map]
  case extendsClause | implementsClause =>
    obtain ⟨word, names, rfl, hword, hnames⟩ := h
    exact ⟨word.relabel f, relabelAll f names, by rw [relabelAll],
      isOneOf_relabel hf hword, not_isOneOf_relabelAll hf (by decide) hnames⟩
  case matchExpr =>
    obtain ⟨word, subject, opening, arms, closing, rfl, hopening, hclosing, hnone⟩ := h
    have hnone := not_isOneOf_relabelAll hf (by decide) hnone
    refine ⟨word.relabel f, relabelAll f subject, opening.relabel f, relabelAll f arms,
      closing.relabel f, ?_, isSign_relabel hf hopening, isSign_relabel hf hclosing, ?_⟩
    · simp [relabelAll_eq_map]
    · simpa [relabelAll_eq_map] using hnone
  case matchArm =>
    obtain ⟨front, sign, behind, rfl, hsign, hnone⟩ := h
    have hnone := not_isOneOf_relabelAll hf (by decide) hnone
    refine ⟨relabelAll f front, sign.relabel f, relabelAll f behind, ?_,
      isSign_relabel hf hsign, ?_⟩
    · simp [relabelAll_eq_map]
    · simpa [relabelAll_eq_map] using hnone
  case assignExpr | arrayElement | constElement | propertyElement =>
    obtain ⟨front, sign, behind, rfl, hsign, hnone⟩ := h
    have hnone := not_isOneOf_relabelAll hf (by decide) hnone
    refine ⟨relabelAll f front, relabelAll f sign, relabelAll f behind, ?_, ?_, ?_⟩
    · simp [relabelAll_eq_map]
    · rwa [relabelAll_eq_map, length_map]
    · simpa [relabelAll_eq_map] using hnone
  case error => exact h
  all_goals trivial

end Relabel

/-- In a source without syntax problems, every node is `Whole`: it has the children that its
construct asks for. -/
theorem whole_of_errors {xs : List Lexeme} (h : (ofTokens (placed xs)).errors = []) :
    (ofTokens (placed xs)).tree.Every (Whole (kindOf (placed xs))) := by
  have hproblems : (Grammar.parse
      (symbols (placed xs) (Significant.ofTokens (placed xs)))).problems = #[] := by
    simpa [ofTokens] using h
  refine Tree.every_relabel (fun kind cs hcs => ?_) _ (Grammar.parse_whole hproblems)
  exact whole_relabelAll ⟨fun _ => rfl, kindOf_last xs⟩ hcs

end Parsed

end CodeLayout
