import CodeLayout.Proofs.Grammar.Progress
import CodeLayout.Proofs.Grammar.Shape

/-!
# Parses without problems

In the tree of a parse that reports nothing, every node has the children that its construct asks
for: a block starts and ends with its braces, a loop ends with one body, and there is no error node
(`Tree.Whole`).

`Forms input Q p s` is the specification of a parse in these terms.  It says nothing of a parse that
ends with a problem, so that whatever only follows a report need not be looked at; if there is no
problem at the end, there was none at the start, and the trees that were added meanwhile are whole
and as `Q` says.  `Yields A p` asks only for the kinds of the leaves outside of nodes, `YieldsNode p`
for exactly one node.  The rules of this module follow the combinators of the grammar.
-/

namespace CodeLayout

open List

namespace Tree

/-- The tree is a leaf of one of the kinds. -/
def IsOneOf (kindOf : Nat → Option TokenKind) (kinds : List TokenKind) (t : Tree) : Prop :=
  ∃ kind ∈ kinds, t.IsSign kindOf kind

/-- The first child that is a leaf of one of the kinds, with those before it and those behind it. -/
structure Cut (kindOf : Nat → Option TokenKind) (kinds : List TokenKind) (cs front : List Tree)
    (sign : Tree) (behind : List Tree) : Prop where
  eq : cs = front ++ sign :: behind
  sign : sign.IsOneOf kindOf kinds
  front : ∀ t ∈ front, ¬ t.IsOneOf kindOf kinds

/-- The words that start a case. -/
def caseWords : List TokenKind := [.caseKw, .defaultKw]

/-- The signs that end the label of a case. -/
def labelEnds : List TokenKind := [.colon, .semiColon]

/-- The signs that end a list. -/
def listEnds : List TokenKind := [.parenEnd, .arrayEnd, .blockEnd]

/-- The signs around the parts of a construct. -/
def braces : List TokenKind := [.blockBegin, .blockEnd]

/-- The signs that give a value to what stands before them. -/
def bindings : List TokenKind := [.assign, .compoundAssign, .doubleArrow]

/-- The words in front of the names of other classes. -/
def inheritanceWords : List TokenKind := [.extendsKw, .implementsKw]

/-- A node has the children that its construct asks for. -/
def Whole (kindOf : Nat → Option TokenKind) (kind : NodeKind) (cs : List Tree) : Prop :=
  match kind with
  | .program => ∀ t ∈ cs, t.isNode = true
  | .block | .classBody | .switchBody => ∃ opening items closing,
      cs = opening :: (items ++ [closing]) ∧
      opening.IsSign kindOf .blockBegin ∧ closing.IsSign kindOf .blockEnd ∧
      ∀ t ∈ items, t.isNode = true
  | .traitUseBody => ∃ opening rules closing, cs = opening :: (rules ++ [closing]) ∧
      opening.IsSign kindOf .blockBegin ∧ closing.IsSign kindOf .blockEnd
  | .extendsClause | .implementsClause => ∃ word names, cs = word :: names ∧
      word.IsOneOf kindOf inheritanceWords ∧ ∀ t ∈ names, ¬ t.IsOneOf kindOf inheritanceWords
  | .matchExpr => ∃ word subject opening arms closing,
      cs = word :: (subject ++ opening :: (arms ++ [closing])) ∧
      opening.IsSign kindOf .blockBegin ∧ closing.IsSign kindOf .blockEnd ∧
      ∀ t ∈ subject ++ arms, ¬ t.IsOneOf kindOf braces
  | .matchArm => ∃ front sign behind, cs = front ++ sign :: behind ∧
      sign.IsSign kindOf .doubleArrow ∧ ∀ t ∈ front ++ behind, ¬ t.IsOneOf kindOf bindings
  | .assignExpr | .arrayElement | .constElement | .propertyElement => ∃ front sign behind,
      cs = front ++ (sign ++ behind) ∧ sign.length ≤ 1 ∧
      ∀ t ∈ front ++ behind, ¬ t.IsOneOf kindOf bindings
  | .elseIfClause | .whileStmt | .foreachStmt => ∃ word rest front closing body,
      cs = word :: rest ∧ Cut kindOf [.parenEnd] rest front closing [body]
  | .elseClause => cs.length ≤ 2
  | .forStmt => ∃ front closing body, Cut kindOf [.parenEnd] cs front closing [body] ∧
      body.isNode = true
  | .caseClause => ∃ word label sign items, Cut kindOf labelEnds cs (word :: label) sign items ∧
      word.IsOneOf kindOf caseWords ∧ ∀ t ∈ items, t.isNode = true
  | .groupUseList | .paramList | .argList | .arrayLiteral | .listExpr | .closureUse
  | .attributeGroup => ∃ front closing, cs = front ++ [closing] ∧ closing.IsOneOf kindOf listEnds
  | .error => False
  | _ => True

end Tree

namespace Grammar

/-- No problem was reported, and no bound was reached. -/
def Clean (s : State) : Prop := s.problems = #[] ∧ s.cutShort = false

/-- The innermost open node is the frame with the trees added to it, and these are whole. -/
structure Holds (input : Input) (top : Tree.Frame) (around : List Tree.Frame) (ts : List Tree)
    (s : State) : Prop where
  frames : s.builder.frames = ⟨top.kind, top.children ++ ts.toArray⟩ :: around
  whole : ∀ t ∈ ts, t.Every (Tree.Whole input.kind?)

/-- From the state on, the parse adds whole trees of which `Q` holds, if it ends without a problem;
then there was none at its start. -/
def Forms {α : Type} (input : Input) (Q : List Tree → Prop) (p : Parse α) (s : State) : Prop :=
  Clean (after p input s) → Clean s ∧ ∀ top around ts, Holds input top around ts s →
    ∃ more, Holds input top around (ts ++ more) (after p input s) ∧ Q more

/-- The parse adds whole trees, with leaves of kinds in the set outside of nodes. -/
def Yields {α : Type} (A : TokenKind → Prop) (p : Parse α) : Prop :=
  ∀ input s, Forms input (Bare input A) p s

/-- One tree, which is a node. -/
def One (ts : List Tree) : Prop := ∃ t, ts = [t] ∧ t.isNode = true

/-- The parse adds one whole node. -/
def YieldsNode {α : Type} (p : Parse α) : Prop := ∀ input s, Forms input One p s

/-- The parse may put what was added since a marker, of which `P` is known, into whole nodes. -/
def FormsSince {α : Type} (P Q : Input → List Tree → Prop) (p : Nat → Parse α) : Prop :=
  ∀ input s since, Clean (after (p since) input s) → Clean s ∧
    ∀ top around ts, top.children.size = since → Holds input top around ts s → P input ts →
      ∃ ts', Holds input top around ts' (after (p since) input s) ∧ Q input ts'

/-- The parse may put what was added since a marker into whole nodes, and keeps the leaves outside of
nodes in the set. -/
def YieldsSince {α : Type} (A : TokenKind → Prop) (p : Nat → Parse α) : Prop :=
  FormsSince (fun input => Bare input A) (fun input => Bare input A) p

section Combinators

variable {α β : Type} {input : Input} {s : State} {A B : TokenKind → Prop}
  {Q R S : List Tree → Prop}

/-! ## Parses in a row -/

variable {p q : Parse α} {f : α → Parse β} {c : Prop} {cause : Cause} {kind : TokenKind}
  {kinds : List TokenKind}

theorem Forms.mono (hp : Forms input Q p s) (hQR : ∀ ts, Q ts → R ts) : Forms input R p s := by
  intro hclean
  obtain ⟨hs, hadd⟩ := hp hclean
  refine ⟨hs, fun top around ts hts => ?_⟩
  obtain ⟨more, hmore, hQ⟩ := hadd top around ts hts
  exact ⟨more, hmore, hQR more hQ⟩

/-- `Forms` for a parse that changes nothing, and adds nothing. -/
theorem Forms.of_after_eq (hp : after p input s = s) : Forms input (· = []) p s := by
  intro hclean
  rw [hp] at hclean ⊢
  refine ⟨hclean, fun top around ts hts => ⟨[], ?_, rfl⟩⟩
  rwa [append_nil]

/-- `Forms` asks nothing of a parse that ends with a problem. -/
theorem Forms.of_not_clean (hp : ¬ Clean (after p input s)) : Forms input Q p s :=
  fun hclean => absurd hclean hp

/-- `Forms` for one parse after the other, which adds the trees of both. -/
theorem Forms.bind (hp : Forms input Q p s)
    (hf : Forms input R (f (answer p input s)) (after p input s))
    (hS : ∀ ts us, Q ts → R us → S (ts ++ us)) : Forms input S (p >>= f) s := by
  intro hclean
  -- backwards: no problem at the end, so none in between, so none at the start
  obtain ⟨hmid, haddf⟩ := hf hclean
  obtain ⟨hs, haddp⟩ := hp hmid
  refine ⟨hs, fun top around new hnew => ?_⟩
  obtain ⟨ts, hts, hQ⟩ := haddp top around new hnew
  obtain ⟨us, hus, hR⟩ := haddf top around (new ++ ts) hts
  refine ⟨ts ++ us, ?_, hS ts us hQ hR⟩
  rw [← append_assoc]
  exact hus

/-- `Forms` behind a look at the symbols, which changes nothing. -/
theorem Forms.look (hp : after p input s = s) (hf : Forms input Q (f (answer p input s)) s) :
    Forms input Q (p >>= f) s := by
  refine (Forms.of_after_eq hp).bind (R := Q) (by rwa [hp]) ?_
  rintro _ us rfl hus
  exact hus

theorem Forms.ite [Decidable c] (hp : c → Forms input Q p s) (hq : ¬ c → Forms input Q q s) :
    Forms input Q (if c then p else q) s := by
  split
  · next hc => exact hp hc
  · next hc => exact hq hc

theorem Yields.mono (hp : Yields A p) (hAB : ∀ kind, A kind → B kind) :
    Yields B p := fun input s => (hp input s).mono fun _ h => h.mono hAB

theorem Yields.any (hp : Yields A p) : Yields anyLeaf p := hp.mono fun _ _ => trivial

theorem YieldsNode.yields (hp : YieldsNode p) : Yields A p := by
  refine fun input s => (hp input s).mono ?_
  rintro ts ⟨t, rfl, hnode⟩
  exact forall_mem_singleton.mpr (.inl hnode)

/-- `Yields` for a parse that only looks, and adds nothing. -/
theorem Yields.of_after_eq (hp : ∀ input s, after p input s = s) : Yields A p :=
  fun input s => (Forms.of_after_eq (hp input s)).mono fun _ h => h ▸ bare_nil

theorem Yields.pure {a : α} : Yields A (pure a : Parse α) := .of_after_eq fun _ _ => rfl

theorem Yields.bind (hp : Yields A p) (hf : ∀ a, Yields A (f a)) : Yields A (p >>= f) :=
  fun input s => (hp input s).bind (hf _ input _) fun _ _ h1 h2 => bare_append.mpr ⟨h1, h2⟩

theorem Yields.seq {q : Parse β} (hp : Yields A p) (hq : Yields A q) : Yields A (p >>= fun _ => q) :=
  hp.bind fun _ => hq

theorem Yields.ite [Decidable c] (hp : Yields A p) (hq : Yields A q) :
    Yields A (if c then p else q) := fun input s => .ite (fun _ => hp input s) fun _ => hq input s

theorem Yields.cond {C : α → Prop} [∀ a, Decidable (C a)] {q r : Parse β} (hp : Yields A p)
    (hq : Yields A q) (hr : Yields A r) : Yields A (p >>= fun a => if C a then q else r) :=
  hp.bind fun _ => .ite hq hr

/-- `Yields` for a parse that may be left out. -/
theorem Yields.optional {C : α → Prop} [∀ a, Decidable (C a)] {q : Parse Unit} {r : Parse β}
    (hp : Yields A p) (hq : Yields A q) (hr : Yields A r) :
    Yields A (p >>= fun a => if C a then q >>= fun _ => r else r) := hp.cond (hq.seq hr) hr

/-! ## Problems -/

theorem not_clean_report : ¬ Clean (after (report cause) input s) := by
  rintro ⟨hproblems, -⟩
  exact Array.push_ne_empty hproblems

theorem not_clean_cutOff : ¬ Clean (after cutOff input s) := by
  rintro ⟨-, hcut⟩
  cases hcut

theorem Forms.report : Forms input Q (report cause) s := .of_not_clean not_clean_report

theorem Forms.unexpected {expected : Expected} : Forms input Q (unexpected expected) s :=
  .look rfl .report

/-- `Forms` asks nothing of what follows a report. -/
theorem Forms.of_first (hp : ∀ {Q}, Forms input Q p s)
    (hf : Forms input (fun _ => True) (f (answer p input s)) (after p input s)) :
    Forms input S (p >>= f) s := (hp (Q := fun _ => False)).bind hf fun _ _ h _ => h.elim

/-! ## Symbols -/

/-- `bump` adds a symbol that was seen as a leaf. -/
theorem Forms.bump_seen (hseen : input.kind? s.position = some kind) :
    Forms input (fun ts => ∃ t, ts = [t] ∧ t.IsSign input.kind? kind) bump s := by
  intro hclean
  rw [after_bump_seen hseen] at hclean ⊢
  refine ⟨hclean, fun top around ts hts => ⟨[.leaf s.position 1], ⟨?_, ?_⟩, _, rfl, hseen⟩⟩
  · show Tree.Builder.attach s.builder.frames _ = _
    rw [hts.frames, Tree.Builder.attach]
    simp
  · refine forall_mem_append.mpr ⟨hts.whole, ?_⟩
    intro t ht
    rw [mem_singleton.mp ht, Tree.Every]
    trivial

theorem bare_sign {t : Tree} (ht : t.IsSign input.kind? kind) (hA : A kind) :
    Bare input A [t] := forall_mem_singleton.mpr (.inr ⟨kind, ht, hA⟩)

/-- `bump` adds one leaf at most, whatever comes next. -/
theorem Forms.bump : Forms input (fun ts => ts.length ≤ 1 ∧ Bare input anyLeaf ts) bump s := by
  cases hseen : input.kind? s.position with
  | none =>
    -- behind the last symbol there is nothing to pass
    have hge : ¬ s.position < input.symbols.size := by
      intro hlt
      obtain ⟨kind, hkind⟩ := exists_kind? hlt
      rw [hseen] at hkind
      cases hkind
    refine (Forms.of_after_eq ?_).mono fun ts h => h ▸ ⟨Nat.zero_le 1, bare_nil⟩
    show (if _ then _ else _ : State) = _
    rw [if_neg hge]
  | some kind =>
    refine (Forms.bump_seen hseen).mono ?_
    rintro ts ⟨t, rfl, ht⟩
    exact ⟨Nat.le_refl 1, bare_sign ht trivial⟩

theorem Forms.bump_bare (hseen : input.kind? s.position = some kind) (hA : A kind) :
    Forms input (Bare input A) Grammar.bump s := by
  refine (Forms.bump_seen hseen).mono ?_
  rintro ts ⟨t, rfl, ht⟩
  exact bare_sign ht hA

theorem Yields.bump : Yields anyLeaf bump := fun _ _ => Forms.bump.mono fun _ h => h.2

/-- `expectAny` passes a symbol of one of the kinds. -/
theorem Forms.expectAny : Forms input (fun ts => ∃ t kind, ts = [t] ∧
    t.IsSign input.kind? kind ∧ kind ∈ kinds) (expectAny kinds) s := by
  refine .look rfl ?_
  rw [answer_peek]
  cases hseen : input.kind? s.position with
  | none => exact .report
  | some kind =>
    refine .ite (fun hmem => ?_) fun _ => .report
    refine (Forms.bump_seen hseen).mono ?_
    rintro ts ⟨t, rfl, ht⟩
    exact ⟨t, kind, rfl, ht, by simpa using hmem⟩

theorem Forms.expect :
    Forms input (fun ts => ∃ t, ts = [t] ∧ t.IsSign input.kind? kind) (expect kind) s := by
  refine Forms.expectAny.mono ?_
  rintro ts ⟨t, kind', rfl, ht, hmem⟩
  exact ⟨t, rfl, mem_singleton.mp hmem ▸ ht⟩

theorem Yields.peekAt {n : Nat} : Yields A (Grammar.peekAt n) := .of_after_eq fun _ _ => rfl

theorem Yields.peek : Yields A Grammar.peek := .peekAt

theorem Yields.check : Yields A (Grammar.check kind) := .of_after_eq fun _ _ => rfl

theorem Yields.checkAny : Yields A (Grammar.checkAny kinds) := .of_after_eq fun _ _ => rfl

theorem Yields.atEnd : Yields A Grammar.atEnd := .of_after_eq fun _ _ => rfl

theorem Yields.closedHere : Yields A Grammar.closedHere := .of_after_eq fun _ _ => rfl

theorem Yields.eat (hA : A kind) : Yields A (Grammar.eat kind) := by
  intro input s
  refine .look rfl (.ite (fun hkind => ?_) fun _ => Yields.pure input s)
  have hseen : input.kind? s.position = some kind := by simpa using hkind
  exact (Forms.bump_bare hseen hA).bind (Yields.pure (A := A) input _)
    fun _ _ h1 h2 => bare_append.mpr ⟨h1, h2⟩

theorem Yields.skip (hA : A kind) : Yields A (Grammar.skip kind) :=
  fun input s => Yields.eat hA input s

theorem Yields.expectAny (hA : ∀ kind ∈ kinds, A kind) : Yields A (Grammar.expectAny kinds) := by
  refine fun input s => Forms.expectAny.mono ?_
  rintro ts ⟨t, kind, rfl, ht, hmem⟩
  exact bare_sign ht (hA kind hmem)

theorem Yields.expect (hA : A kind) : Yields A (Grammar.expect kind) :=
  .expectAny fun _ hk => mem_singleton.mp hk ▸ hA

theorem Yields.expectEnd : Yields anyLeaf Grammar.expectEnd := by
  refine .cond (.eat trivial) .pure ?_
  exact .cond .closedHere .pure (.expect trivial)

/-! ## Nodes -/

/-- Kinds of nodes on whose children nothing is asked. -/
def free : NodeKind → Bool
  | .program | .block | .classBody | .switchBody | .traitUseBody | .extendsClause
  | .implementsClause | .matchExpr | .matchArm | .assignExpr | .arrayElement | .constElement
  | .propertyElement | .elseIfClause | .whileStmt | .foreachStmt | .elseClause | .forStmt
  | .caseClause | .groupUseList | .paramList | .argList | .arrayLiteral | .listExpr | .closureUse
  | .attributeGroup | .error => false
  | _ => true

theorem whole_of_free {kindOf : Nat → Option TokenKind} {kind : NodeKind} (h : free kind = true)
    (cs : List Tree) : Tree.Whole kindOf kind cs := by
  cases kind <;> first | exact trivial | exact absurd h (by decide)

/-- `finish` makes the innermost open node a child of the node around it. -/
theorem Holds.finish {top : Tree.Frame} {around : List Tree.Frame} {ts cs : List Tree}
    {kind : NodeKind}
    (h : Holds input ⟨kind, #[]⟩ (⟨top.kind, top.children ++ ts.toArray⟩ :: around) cs s)
    (hts : ∀ t ∈ ts, t.Every (Tree.Whole input.kind?)) (hwhole : Tree.Whole input.kind? kind cs) :
    Holds input top around (ts ++ [.branch kind cs])
      { s with builder := s.builder.finish.1 } where
  frames := by
    show (s.builder.finish.1).frames = _
    rw [Tree.Builder.finish, h.frames]
    simp [Tree.Builder.attach]
  whole := by
    refine forall_mem_append.mpr ⟨hts, forall_mem_singleton.mpr ?_⟩
    exact Tree.every_branch.mpr ⟨hwhole, h.whole⟩

/-- `node` is whole if its body adds what the construct asks for. -/
theorem Forms.node {kind : NodeKind} {body : Parse Unit}
    (hbody : Forms input Q body { s with builder := s.builder.start kind })
    (hwhole : ∀ cs, Q cs → Tree.Whole input.kind? kind cs) : Forms input One (node kind body) s := by
  intro hclean
  obtain ⟨hs, hadd⟩ := hbody hclean
  refine ⟨hs, fun top around ts hts => ?_⟩
  have hopen : Holds input ⟨kind, #[]⟩ (⟨top.kind, top.children ++ ts.toArray⟩ :: around) []
      { s with builder := s.builder.start kind } := by
    refine ⟨?_, nofun⟩
    show ⟨kind, #[]⟩ :: s.builder.frames = _
    rw [hts.frames]
    simp
  obtain ⟨cs, hcs, hQ⟩ := hadd _ _ _ hopen
  exact ⟨[.branch kind cs], hcs.finish hts.whole (hwhole cs hQ), _, rfl, rfl⟩

theorem YieldsNode.node {kind : NodeKind} {body : Parse Unit} (hkind : free kind = true)
    (hbody : Yields anyLeaf body) : YieldsNode (node kind body) :=
  fun input _ => (hbody input _).node fun cs _ => whole_of_free hkind cs

theorem Yields.node {kind : NodeKind} {body : Parse Unit} (hkind : free kind = true)
    (hbody : Yields anyLeaf body) : Yields A (node kind body) := (YieldsNode.node hkind hbody).yields

/-! ## Markers -/

section Since

variable {P P' : Input → List Tree → Prop} {p : Nat → Parse α}

theorem FormsSince.mono {P'' : Input → List Tree → Prop} (hp : FormsSince P P' p)
    (h : ∀ input ts, P' input ts → P'' input ts) : FormsSince P P'' p := by
  intro input s since hclean
  obtain ⟨hs, hadd⟩ := hp input s since hclean
  refine ⟨hs, fun top around ts hsize hts hP => ?_⟩
  obtain ⟨ts', hts', hP'⟩ := hadd top around ts hsize hts hP
  exact ⟨ts', hts', h input ts' hP'⟩

theorem FormsSince.bind {M : Input → List Tree → Prop} {f : Nat → α → Parse β}
    (hp : FormsSince P M p) (hf : ∀ a, FormsSince M P' fun since => f since a) :
    FormsSince P P' fun since => p since >>= f since := by
  intro input s since hclean
  obtain ⟨hmid, haddf⟩ := hf _ input _ since hclean
  obtain ⟨hs, haddp⟩ := hp input s since hmid
  refine ⟨hs, fun top around new hsize hnew hP => ?_⟩
  obtain ⟨ts, hts, hM⟩ := haddp top around new hsize hnew hP
  exact haddf top around ts hsize hts hM

theorem FormsSince.ite {c : Prop} [Decidable c] {q : Nat → Parse α} (hp : FormsSince P P' p)
    (hq : FormsSince P P' q) : FormsSince P P' fun since => if c then p since else q since := by
  split
  · exact hp
  · exact hq

/-- `FormsSince` for a parse that only adds, of whose additions nothing needs to be known. -/
theorem FormsSince.of_yields {p : Parse α} (hp : Yields anyLeaf p) :
    FormsSince (fun _ _ => True) (fun _ _ => True) fun _ => p := by
  intro input s since hclean
  obtain ⟨hs, hadd⟩ := hp input s hclean
  refine ⟨hs, fun top around ts _ hts _ => ?_⟩
  obtain ⟨more, hmore, -⟩ := hadd top around ts hts
  exact ⟨ts ++ more, hmore, trivial⟩

variable {kind : NodeKind}

/-- `wrap` makes one node of what was added since the marker and what the body adds, which is whole
if both together are what the construct asks for. -/
theorem FormsSince.wrap_whole {body : Parse Unit} {Q : Input → List Tree → Prop}
    (hbody : ∀ input s, Forms input (Q input) body s)
    (hwhole : ∀ input ts us, P input ts → Q input us → Tree.Whole input.kind? kind (ts ++ us)) :
    FormsSince P (fun _ => One) fun since => wrap since kind body := by
  intro input s since hclean
  obtain ⟨hs, hadd⟩ := hbody input { s with builder := s.builder.startAt since kind } hclean
  refine ⟨hs, fun top around ts hsize hts hP => ?_⟩
  subst hsize
  -- the node opens where the marker was set, with what was added since as its first children
  have hopen : Holds input ⟨kind, #[]⟩ (⟨top.kind, top.children ++ ([] : List Tree).toArray⟩ :: around)
      ts { s with builder := s.builder.startAt top.children.size kind } := by
    refine ⟨?_, hts.whole⟩
    show (s.builder.startAt top.children.size kind).frames = _
    rw [Tree.Builder.startAt, hts.frames]
    simp
  obtain ⟨more, hmore, hQ⟩ := hadd _ _ _ hopen
  exact ⟨_, hmore.finish (forall_mem_nil _) (hwhole input ts more hP hQ), _, rfl, rfl⟩

theorem FormsSince.wrap {body : Parse Unit} (hkind : free kind = true)
    (hbody : Yields anyLeaf body) : FormsSince P (fun _ => One) fun since => wrap since kind body :=
  .wrap_whole hbody fun _ _ _ _ _ => whole_of_free hkind _

/-- `unexpected` ends with a problem. -/
theorem FormsSince.unexpected {expected : Expected} :
    FormsSince P P' fun _ => unexpected expected :=
  fun _ _ _ hclean => absurd hclean not_clean_report

/-- `marker` is set where nothing has been added yet. -/
theorem Forms.marker (hp : FormsSince P P' p) (hP : P input []) :
    Forms input (P' input) (Grammar.marker >>= p) s := by
  intro hclean
  obtain ⟨hs, hadd⟩ := hp input s s.builder.marker hclean
  refine ⟨hs, fun top around ts hts => ?_⟩
  have hmark : (top.children ++ ts.toArray).size = s.builder.marker := by
    rw [Tree.Builder.marker, hts.frames]
  -- counted from here on, the innermost node has no new children yet
  have hhere : Holds input ⟨top.kind, top.children ++ ts.toArray⟩ around [] s := by
    refine ⟨?_, forall_mem_nil _⟩
    rw [hts.frames]
    simp
  obtain ⟨more, hmore, hP'⟩ := hadd _ _ [] hmark hhere hP
  refine ⟨more, ⟨?_, forall_mem_append.mpr ⟨hts.whole, hmore.whole⟩⟩, hP'⟩
  rw [show after (Grammar.marker >>= p) input s = after (p s.builder.marker) input s from rfl,
    hmore.frames]
  simp

end Since

theorem YieldsSince.of_yields (hp : Yields A p) : YieldsSince A fun _ => p := by
  intro input s since hclean
  obtain ⟨hs, hadd⟩ := hp input s hclean
  refine ⟨hs, fun top around ts _ hts hbare => ?_⟩
  obtain ⟨more, hmore, hbare'⟩ := hadd top around ts hts
  exact ⟨ts ++ more, hmore, bare_append.mpr ⟨hbare, hbare'⟩⟩

theorem YieldsSince.bind {p : Nat → Parse α} {f : Nat → α → Parse β} (hp : YieldsSince A p)
    (hf : ∀ a, YieldsSince A fun since => f since a) :
    YieldsSince A fun since => p since >>= f since := FormsSince.bind hp hf

theorem YieldsSince.seq {p : Nat → Parse α} {q : Nat → Parse β} (hp : YieldsSince A p)
    (hq : YieldsSince A q) : YieldsSince A fun since => p since >>= fun _ => q since :=
  hp.bind fun _ => hq

theorem YieldsSince.ite [Decidable c] {p q : Nat → Parse α} (hp : YieldsSince A p)
    (hq : YieldsSince A q) : YieldsSince A fun since => if c then p since else q since :=
  FormsSince.ite hp hq

theorem YieldsSince.wrap {kind : NodeKind} {body : Parse Unit} (hkind : free kind = true)
    (hbody : Yields anyLeaf body) : YieldsSince A fun since => wrap since kind body := by
  refine (FormsSince.wrap hkind hbody).mono ?_
  rintro input ts ⟨t, rfl, hnode⟩
  exact forall_mem_singleton.mpr (.inl hnode)

theorem Yields.marker {p : Nat → Parse α} (hp : YieldsSince A p) :
    Yields A (Grammar.marker >>= p) := fun _ _ => Forms.marker hp bare_nil

/-! ## Repetition -/

theorem Yields.cutOff : Yields A cutOff := fun _ _ => .of_not_clean not_clean_cutOff

theorem Yields.repeatUpTo {step : Parse Bool} (hstep : Yields A step) (n : Nat) :
    Yields A (repeatUpTo step n) := by
  induction n with
  | zero => exact .cutOff
  | succ n ih => exact .cond hstep ih .pure

theorem Yields.repeating {step : Parse Bool} (hstep : Yields A step) : Yields A (repeating step) :=
  .bind (.of_after_eq fun _ _ => rfl) fun _ => .repeatUpTo hstep _

theorem YieldsSince.repeatUpTo {step : Nat → Parse Bool} (hstep : YieldsSince A step) (n : Nat) :
    YieldsSince A fun since => repeatUpTo (step since) n := by
  induction n with
  | zero => exact .of_yields .cutOff
  | succ n ih => exact .bind hstep fun _ => .ite ih (.of_yields .pure)

theorem YieldsSince.repeating {step : Nat → Parse Bool} (hstep : YieldsSince A step) :
    YieldsSince A fun since => repeating (step since) :=
  .bind (.of_yields (.of_after_eq fun _ _ => rfl)) fun _ => .repeatUpTo hstep _

theorem Yields.whileEating {parse : Parse Unit} (hA : A kind) (hparse : Yields A parse) :
    Yields A (Grammar.whileEating kind parse) :=
  .repeating (.cond (.eat hA) (.seq hparse .pure) .pure)

theorem Yields.commaSeparated {parse : Parse Unit} (hA : A .comma) (hparse : Yields A parse) :
    Yields A (Grammar.commaSeparated parse) := .seq hparse <| .whileEating hA hparse

theorem Yields.itemsUntil {close : TokenKind} {item : Parse Unit} (hA : A .comma)
    (hitem : Yields A item) : Yields A (Grammar.itemsUntil close item) :=
  .repeating (.bind .check fun _ => .cond .atEnd .pure (.seq hitem <| .eat hA))

/-! ## Recovery -/

/-- `closeGuard` puts nothing into an error node where no problem was reported. -/
theorem Forms.closeGuard {since : Nat} : Forms input (· = []) (closeGuard since) s := by
  have hget : after (Grammar.closeGuard since) input s =
      after (if s.problems.size > s.wrapped then do
          wrap since .error (Pure.pure ())
          modify fun s => { s with wrapped := s.problems.size }
        else Pure.pure ()) input s := rfl
  intro hclean
  rw [hget] at hclean ⊢
  split at hclean
  · next hlt =>
    -- closing an error node keeps the problems that called for it
    have hnone : s.problems = #[] := hclean.1
    rw [hnone] at hlt
    exact absurd hlt (Nat.not_lt_zero _)
  · next hle =>
    rw [if_neg hle]
    exact Forms.of_after_eq rfl hclean

/-- `guarded` adds what the parse itself adds, if it reports nothing. -/
theorem Forms.guarded {parse : Parse Unit} (hparse : Forms input Q parse s) :
    Forms input Q (guarded parse) s := by
  have hclose {R : List Tree → Prop} {p : Parse Unit} (hp : Forms input R p s) (since : Nat) :
      Forms input R (p >>= fun _ => Grammar.closeGuard since) s := by
    refine hp.bind Forms.closeGuard ?_
    rintro ts _ hts rfl
    rwa [append_nil]
  have hafter := after_guarded parse input s
  intro hclean
  rw [hafter] at hclean ⊢
  split at hclean
  · -- a parse that passes nothing is reported
    have hskip : Forms input Q (parse >>= fun _ => Grammar.unexpected .statement >>= fun _ =>
        Grammar.bump >>= fun _ => Grammar.closeGuard s.builder.marker) s := by
      refine hparse.bind (R := fun _ => False) ?_ fun _ _ _ h => h.elim
      refine Forms.of_first .unexpected ?_
      exact Forms.bump.bind Forms.closeGuard fun _ _ _ _ => trivial
    next hnone =>
    rw [if_pos hnone]
    exact hskip hclean
  · next hsome =>
    rw [if_neg hsome]
    exact hclose hparse _ hclean

end Combinators

end Grammar

end CodeLayout
