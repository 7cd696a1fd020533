import CodeLayout.Proofs.Grammar.Added

/-!
# Parses that only add

`Grows A p` is the specification of a parse in terms of what it adds: it only adds, and among the
leaves that it adds outside of any node of its own there are only kinds in `A`.  `Since P Q p` is the
one of a parse that may put what was added since a marker into a node.  The rules of this module
follow the combinators of the grammar.
-/

namespace CodeLayout.Grammar

open List
open CodeLayout.Tree (Formed Orderly Led Headed leavesAll leavesAll_append leavesAll_cons
  leavesAll_nil leaves_branch sound_branch)

/-! ## Specifications -/

/-- What is known of the trees that a parse adds and of the state after it. -/
abbrev Outcomes := List Tree → State → Prop

/-- From the state on, the parse adds trees to the innermost open node, with the given outcome. -/
def Adds {α : Type} (input : Input) (Q : Outcomes) (p : Parse α) (s : State) : Prop :=
  ∀ h start new, Added input h start new s →
    ∃ more, Added input h start (new ++ more) (after p input s) ∧ Q more (after p input s)

/-- The effect of a parse, from a state on. -/
abbrev Effect := Input → State → Outcomes

/-- All parses with the effect have it together, one after the other. -/
structure Effect.Additive (E : Effect) : Prop where
  nil : ∀ {input s}, E input s [] s
  append : ∀ {input s s' s'' ts us}, E input s ts s' → E input s' us s'' →
    E input s (ts ++ us) s''

/-- The parse has the effect, from every state on. -/
def Meets {α : Type} (E : Effect) (p : Parse α) : Prop := ∀ input s, Adds input (E input s) p s

/-- The parse adds well-formed trees, with leaves of kinds in the set outside of nodes. -/
def Grows {α : Type} (A : TokenKind → Prop) (p : Parse α) : Prop :=
  Meets (fun input _ more _ => Neat input A more) p

/-- The parse may put what was added since a marker, of which `P` is known, into nodes. -/
def Since {α : Type} (P Q : Input → Outcomes) (p : Nat → Parse α) : Prop :=
  ∀ input s h start new, Added input h start new s → P input new s →
    ∃ new', Added input h start new' (after (p h.children.size) input s) ∧
      Q input new' (after (p h.children.size) input s)

/-- All leaves are allowed outside of nodes. -/
def anyLeaf : TokenKind → Prop := fun _ => True

/-- No leaf is allowed outside of nodes. -/
def noLeaf : TokenKind → Prop := fun _ => False

variable {input : Input} {A B : TokenKind → Prop} {ts us cs : List Tree} {t : Tree}
  {kind opening closing : TokenKind} {kindOf : Nat → Option TokenKind} {s : State} {h : Hole}

theorem bare_nil : Bare input A [] := by
  intro t ht
  simp at ht

theorem bare_append :
    Bare input A (ts ++ us) ↔ Bare input A ts ∧ Bare input A us := forall_mem_append

theorem Bare.mono (h : Bare input A ts) (hAB : ∀ kind, A kind → B kind) : Bare input B ts := by
  intro t ht
  obtain hnode | ⟨kind, hsign, hA⟩ := h t ht
  · exact .inl hnode
  · exact .inr ⟨kind, hsign, hAB kind hA⟩

theorem bare_noLeaf : Bare input noLeaf ts ↔ ∀ t ∈ ts, t.isNode = true := by
  refine forall₂_congr fun t _ => ⟨?_, .inl⟩
  rintro (hnode | ⟨kind, -, hkind⟩)
  · exact hnode
  · exact hkind.elim

theorem neat_nil : Neat input A [] := ⟨bare_nil, forall_mem_nil _⟩

theorem neat_append : Neat input A (ts ++ us) ↔ Neat input A ts ∧ Neat input A us := by
  refine ⟨fun h => ?_, fun h => ⟨bare_append.mpr ⟨h.1.bare, h.2.bare⟩, ?_⟩⟩
  · obtain ⟨hts, hus⟩ := bare_append.mp h.bare
    obtain ⟨hts', hus'⟩ := forall_mem_append.mp h.sound
    exact ⟨⟨hts, hts'⟩, hus, hus'⟩
  · exact forall_mem_append.mpr ⟨h.1.sound, h.2.sound⟩

theorem Neat.mono (h : Neat input A ts) (hAB : ∀ kind, A kind → B kind) : Neat input B ts :=
  ⟨h.bare.mono hAB, h.sound⟩

theorem neat_sign (ht : t.IsSign input.kind? kind) (hA : A kind) : Neat input A [t] := by
  refine ⟨forall_mem_singleton.mpr (.inr ⟨kind, ht, hA⟩), forall_mem_singleton.mpr ?_⟩
  cases t with
  | leaf i w => exact Tree.sound_leaf
  | node k w cs => exact ht.elim

/-! ## Combinators -/

section Combinators

variable {α β : Type} {input : Input} {s : State} {A B : TokenKind → Prop}

variable {a : α} {Q R : Outcomes} {p : Parse α} {f : α → Parse β} {c : Prop} {cause : Cause}
  {kindOf : Nat → Option TokenKind} {kind : NodeKind} {cs : List Tree}

theorem Adds.pure : Adds input (fun more _ => more = []) (pure a : Parse α) s := by
  intro h start new hadd
  exact ⟨[], by simpa using hadd, rfl⟩

theorem Adds.mono (hp : Adds input Q p s) (hQR : ∀ more s', Q more s' → R more s') :
    Adds input R p s := by
  intro h start new hadd
  obtain ⟨more, hmore, hQ⟩ := hp h start new hadd
  exact ⟨more, hmore, hQR _ _ hQ⟩

/-- `Adds` with a weaker outcome; of the state, all that holds after the parse may be used. -/
theorem Adds.imp (hp : Adds input Q p s)
    (hQR : ∀ more, Q more (after p input s) → R more (after p input s)) : Adds input R p s := by
  intro h start new hadd
  obtain ⟨more, hmore, hQ⟩ := hp h start new hadd
  exact ⟨more, hmore, hQR _ hQ⟩

/-- `Adds` for one parse after the other, with the trees of both. -/
theorem Adds.bind {S : Outcomes} (hp : Adds input Q p s)
    (hf : Adds input R (f (answer p input s)) (after p input s))
    (hS : ∀ ts us s', Q ts (after p input s) → R us s' → S (ts ++ us) s') :
    Adds input S (p >>= f) s := by
  intro h start new hadd
  obtain ⟨ts, hts, hQ⟩ := hp h start new hadd
  obtain ⟨us, hus, hR⟩ := hf h start (new ++ ts) hts
  refine ⟨ts ++ us, ?_, ?_⟩
  · rw [← append_assoc]
    exact hus
  · exact hS ts us _ hQ hR

/-- `Adds` with an answer at the end, which changes nothing. -/
theorem Adds.thenPure {b : β} (hp : Adds input Q p s) :
    Adds input Q (p >>= fun _ => Pure.pure b) s := by
  exact fun h start new hadd => hp h start new hadd

/-- `Adds` behind a look at the symbols, which changes nothing. -/
theorem Adds.look (hp : after p input s = s) (hf : Adds input Q (f (answer p input s)) s) :
    Adds input Q (p >>= f) s := by
  intro h start new hadd
  rw [after_bind, hp]
  exact hf h start new hadd

/-- What is known of a parse in two ways is known of the same trees (`Adds`). -/
theorem Adds.and (hQ : Adds input Q p s) (hR : Adds input R p s) :
    Adds input (fun more s' => Q more s' ∧ R more s') p s := by
  intro h start new hadd
  obtain ⟨ts, hts, hQ⟩ := hQ h start new hadd
  obtain ⟨us, hus, hR⟩ := hR h start new hadd
  have heq : ts = us := by
    have hframes := hts.frames.symm.trans hus.frames
    simp only [List.cons.injEq, Tree.Frame.mk.injEq, true_and, and_true] at hframes
    simpa using congrArg Array.toList hframes
  exact ⟨ts, hts, hQ, heq ▸ hR⟩

namespace Meets

variable {E : Effect}

theorem pure (hE : E.Additive) {a : α} : Meets E (pure a : Parse α) := by
  intro input s h start new hadd
  exact ⟨[], by simpa using hadd, hE.nil⟩

variable {p : Parse α}

theorem bind (hE : E.Additive) {f : α → Parse β} (hp : Meets E p) (hf : ∀ a, Meets E (f a)) :
    Meets E (p >>= f) :=
  fun input s => (hp input s).bind (hf _ input _) fun _ _ _ h1 h2 => hE.append h1 h2

theorem ite {c : Prop} [Decidable c] {q : Parse α} (hp : Meets E p) (hq : Meets E q) :
    Meets E (if c then p else q) := by
  split
  · exact hp
  · exact hq

/-- A parse that only looks `Meets` any effect that nothing has. -/
theorem of_after_eq (hE : E.Additive) (hp : ∀ input s, after p input s = s) : Meets E p := by
  intro input s h start new hadd
  rw [hp]
  exact ⟨[], by simpa using hadd, hE.nil⟩

theorem repeatUpTo (hE : E.Additive) (hcut : Meets E cutOff) {step : Parse Bool}
    (hstep : Meets E step) (n : Nat) : Meets E (repeatUpTo step n) := by
  induction n with
  | zero => exact hcut
  | succ n ih => exact .bind hE hstep fun _ => .ite ih (.pure hE)

theorem repeating (hE : E.Additive) (hcut : Meets E cutOff) {step : Parse Bool}
    (hstep : Meets E step) : Meets E (repeating step) :=
  .bind hE (.of_after_eq hE fun _ _ => rfl) fun _ => .repeatUpTo hE hcut hstep _

end Meets

theorem additive_neat : Effect.Additive fun input _ more _ => Neat input A more :=
  ⟨neat_nil, fun h1 h2 => neat_append.mpr ⟨h1, h2⟩⟩

theorem Grows.mono (hp : Grows A p) (hAB : ∀ kind, A kind → B kind) : Grows B p :=
  fun input s => (hp input s).mono fun _ _ h => h.mono hAB

/-- `Grows` where all leaves are allowed. -/
theorem Grows.any (hp : Grows A p) : Grows anyLeaf p := hp.mono fun _ _ => trivial

/-- A parse that adds no bare leaf (`noLeaf`) may stand anywhere. -/
theorem Grows.of_noLeaf (hp : Grows noLeaf p) : Grows A p := hp.mono fun _ h => h.elim

theorem Grows.pure : Grows A (pure a : Parse α) := Meets.pure additive_neat

theorem Grows.bind (hp : Grows A p) (hf : ∀ a, Grows A (f a)) :
    Grows A (p >>= f) := Meets.bind additive_neat hp hf

theorem Grows.seq {q : Parse β} (hp : Grows A p) (hq : Grows A q) : Grows A (p >>= fun _ => q) :=
  hp.bind fun _ => hq

theorem Grows.ite [Decidable c] {q : Parse α} (hp : Grows A p) (hq : Grows A q) :
    Grows A (if c then p else q) := Meets.ite hp hq

theorem Grows.cond {C : α → Prop} [∀ a, Decidable (C a)] {q r : Parse β} (hp : Grows A p)
    (hq : Grows A q) (hr : Grows A r) : Grows A (p >>= fun a => if C a then q else r) :=
  hp.bind fun _ => .ite hq hr

/-- `Grows` for a parse that may be left out. -/
theorem Grows.optional {C : α → Prop} [∀ a, Decidable (C a)] {q : Parse Unit} {r : Parse β}
    (hp : Grows A p) (hq : Grows A q) (hr : Grows A r) :
    Grows A (p >>= fun a => if C a then q >>= fun _ => r else r) := hp.cond (hq.seq hr) hr

theorem Adds.then_grows (hp : Adds input (fun more _ => Neat input A more) p s)
    (hf : ∀ a, Grows A (f a)) :
    Adds input (fun more _ => Neat input A more) (p >>= f) s :=
  hp.bind (hf _ input _) fun _ _ _ h1 h2 => neat_append.mpr ⟨h1, h2⟩

/-- `Grows` for a parse that only looks, and adds nothing. -/
theorem Grows.of_after_eq (hp : ∀ input s, after p input s = s) : Grows A p :=
  Meets.of_after_eq additive_neat hp

/-- `report` adds nothing, and records the problem. -/
theorem Adds.report : Adds input (fun more s' => more = [] ∧
    s' = { s with problems := s.problems.push ⟨s.position, cause⟩ }) (report cause) s := by
  intro h start new hadd
  refine ⟨[], ?_, rfl, rfl⟩
  rw [append_nil]
  exact hadd.congr rfl rfl (hadd.noted.report hadd.start_le cause)

/-- `report` adds no tree. -/
theorem Grows.report : Grows A (report cause) :=
  fun _ _ => Adds.report.mono fun _ _ h => h.1 ▸ neat_nil

theorem after_bump_seen {kind : TokenKind} (hseen : input.kind? s.position = some kind) :
    after bump input s =
      { s with position := s.position + 1, builder := s.builder.token s.position 1 } := by
  show (if _ then _ else _ : State) = _
  rw [if_pos (lt_size_of_kind? hseen)]

/-- `bump` of a symbol that was seen adds it as a leaf. -/
theorem Adds.bump_seen {kind : TokenKind} (hseen : input.kind? s.position = some kind) :
    Adds input (fun more _ => ∃ t, more = [t] ∧ t.IsSign input.kind? kind) bump s := by
  intro h start new hadd
  rw [after_bump_seen hseen]
  refine ⟨[.leaf s.position 1], hadd.trans ?_, _, rfl, hseen⟩
  refine ⟨?_, Nat.le_succ _, lt_size_of_kind? hseen, ?_, ?_, hadd.noted.unchanged (Nat.le_succ _) rfl rfl⟩
  · show Tree.Builder.attach s.builder.frames _ = _
    rw [hadd.frames, Tree.Builder.attach]
    simp
  · simp
  · intro t ht
    rw [mem_singleton.mp ht, Tree.Every]
    trivial

/-- `bump` adds one leaf at most. -/
theorem Adds.bump : Adds input (fun more _ => more = [] ∨
    ∃ kind t, more = [t] ∧ t.IsSign input.kind? kind) bump s := by
  cases hseen : input.kind? s.position with
  | some kind =>
    refine (Adds.bump_seen hseen).mono ?_
    rintro more _ ⟨t, hmore, ht⟩
    exact .inr ⟨kind, t, hmore, ht⟩
  | none =>
    have hge : ¬ s.position < input.symbols.size := by
      intro hlt
      obtain ⟨kind, hkind⟩ := exists_kind? hlt
      rw [hkind] at hseen
      cases hseen
    have hafter : after Grammar.bump input s = s := by
      show (if _ then _ else _ : State) = _
      rw [if_neg hge]
    intro h start new hadd
    rw [hafter]
    exact ⟨[], by simpa using hadd, .inl rfl⟩

/-- `bump` of a symbol whose kind was seen adds trees that are `Neat`. -/
theorem Adds.bump_neat {kind : TokenKind} (hseen : input.kind? s.position = some kind)
    (hA : A kind) : Adds input (fun more _ => Neat input A more) Grammar.bump s := by
  refine (Adds.bump_seen hseen).mono ?_
  rintro more _ ⟨t, rfl, ht⟩
  exact neat_sign ht hA

/-- `bump` leaves the problems alone. -/
theorem after_bump (input : Input) (s : State) :
    (after bump input s).problems = s.problems ∧ (after bump input s).wrapped = s.wrapped := by
  show (if _ then _ else _ : State).problems = _ ∧ (if _ then _ else _ : State).wrapped = _
  split
  · exact ⟨rfl, rfl⟩
  · exact ⟨rfl, rfl⟩

theorem Grows.bump : Grows anyLeaf bump := by
  intro input s
  refine Adds.bump.mono ?_
  rintro more _ (rfl | ⟨kind, t, rfl, ht⟩)
  · exact neat_nil
  · exact neat_sign ht trivial

/-! ### Nodes -/

/-- Kinds of nodes that start with their word or sign. -/
def leads : NodeKind → Bool
  | .attributeGroup | .elseIfClause | .elseClause | .whileStmt | .foreachStmt | .switchStmt
  | .caseClause | .catchClause | .finallyClause | .emptyStmt | .closureUse | .groupUseList => true
  | _ => false

/-- Kinds of nodes on whose children nothing else is asked. -/
def plain : NodeKind → Bool
  | .block | .classBody | .forStmt | .ifStmt | .switchBody | .binaryExpr | .instanceofExpr
  | .coalesceExpr | .postfixExpr | .param | .propertyDecl | .classConstDecl | .program => false
  | kind => !leads kind

theorem orderly_of_plain (h : plain kind = true) (cs : List Tree) : Orderly kindOf kind cs := by
  unfold Orderly
  split
  · exact absurd h (by decide)
  · exact absurd h (by decide)
  · exact absurd h (by decide)
  · trivial

theorem formed_of_plain (h : plain kind = true) (cs : List Tree) : Formed kindOf kind cs := by
  unfold Formed
  split
  all_goals trivial

theorem orderly_of_leads (h : leads kind = true) (cs : List Tree) : Orderly kindOf kind cs := by
  unfold Orderly
  split
  · exact absurd h (by decide)
  · exact absurd h (by decide)
  · exact absurd h (by decide)
  · trivial

theorem formed_of_leads (h : leads kind = true) (hled : Led kindOf cs) : Formed kindOf kind cs := by
  unfold Formed
  split
  all_goals first | exact hled | trivial

/-- `finish` makes the innermost open node a child of the node around it. -/
theorem Added.finish {h : Hole} {start : Nat}
    (hadd : Added input ⟨kind, #[], ⟨h.kind, h.children⟩ :: h.around, h.problems, h.wrapped⟩
      start cs s) (horderly : Orderly input.kind? kind cs) :
    Added input h start [.branch kind cs] { s with builder := s.builder.finish.1 } where
  frames := by
    show (s.builder.finish.1).frames = _
    rw [Tree.Builder.finish, hadd.frames]
    simp [Tree.Builder.attach]
  start_le := hadd.start_le
  le_size := hadd.le_size
  leaves := by
    rw [leavesAll_cons, leaves_branch, leavesAll_nil, append_nil]
    exact hadd.leaves
  orderly := by
    intro t ht
    rw [mem_singleton.mp ht, Tree.every_branch]
    exact ⟨horderly, hadd.orderly⟩
  noted := hadd.noted.branch.congr rfl rfl rfl

/-- `node` adds a node of its own, with what the body adds to it. -/
theorem Adds.node {body : Parse Unit}
    (hbody : Adds input Q body { s with builder := s.builder.start kind })
    (horderly : ∀ cs s', Q cs s' → Orderly input.kind? kind cs) :
    Adds input (fun more s' => ∃ cs b, more = [.branch kind cs] ∧ Q cs { s' with builder := b })
      (node kind body) s := by
  intro h start new hadd
  have hopen : Added input ⟨kind, #[], ⟨h.kind, h.children ++ new.toArray⟩ :: h.around,
      s.problems, s.wrapped⟩ s.position [] { s with builder := s.builder.start kind } := by
    refine ⟨?_, Nat.le_refl _, hadd.le_size, by simp, by simp,
      hadd.noted.unchanged (Nat.le_refl _) rfl rfl⟩
    show ⟨kind, #[]⟩ :: s.builder.frames = _
    rw [hadd.frames]
    simp
  obtain ⟨cs, hcs, hQ⟩ := hbody _ _ _ hopen
  exact ⟨[.branch kind cs], hadd.trans (hcs.finish (horderly _ _ hQ)), cs, _, rfl, hQ⟩

/-- No leaf outside of nodes, and no more than one node. -/
def Lone (ts : List Tree) : Prop := ts.length ≤ 1 ∧ ∀ t ∈ ts, t.isNode = true

theorem lone_nil : Lone [] := ⟨Nat.zero_le _, nofun⟩

theorem lone_branch {k : NodeKind} : Lone [.branch k cs] :=
  ⟨Nat.le_refl _, fun _ ht => mem_singleton.mp ht ▸ rfl⟩

/-- A well-formed node, or nothing. -/
structure Sole (input : Input) (ts : List Tree) : Prop where
  lone : Lone ts
  sound : ∀ t ∈ ts, t.Sound (Formed input.kind?)

theorem Sole.neat {ts : List Tree} (h : Sole input ts) : Neat input A ts :=
  ⟨(bare_noLeaf.mpr h.lone.2).mono fun _ h => h.elim, h.sound⟩

theorem sole_branch (hcs : Neat input A cs) (hformed : Formed input.kind? kind cs) :
    Sole input [.branch kind cs] := by
  refine ⟨lone_branch, fun t ht => ?_⟩
  rw [mem_singleton.mp ht, sound_branch]
  exact .inr ⟨hformed, hcs.sound⟩

/-- The parse adds one node, or nothing. -/
def GrowsNode {α : Type} (p : Parse α) : Prop := Meets (fun input _ more _ => Sole input more) p

theorem GrowsNode.grows (hp : GrowsNode p) : Grows A p :=
  fun input s => (hp input s).mono fun _ _ h => h.neat

/-- `node` whose children are in order and well formed. -/
theorem Adds.sole {body : Parse Unit} {R : List Tree → Prop}
    (hbody : Adds input (fun cs _ => Neat input anyLeaf cs ∧ R cs) body
      { s with builder := s.builder.start kind }) (hR : ∀ cs, Neat input anyLeaf cs → R cs →
      Orderly input.kind? kind cs ∧ Formed input.kind? kind cs) :
    Adds input (fun more _ => ∃ cs, more = [.branch kind cs] ∧ Sole input more)
      (Grammar.node kind body) s := by
  refine (hbody.node fun cs _ h => (hR cs h.1 h.2).1).mono ?_
  rintro more _ ⟨cs, _, rfl, hcs, hRcs⟩
  exact ⟨cs, rfl, sole_branch hcs (hR cs hcs hRcs).2⟩

/-- The parse adds one node. -/
def GrowsOne {α : Type} (p : Parse α) : Prop :=
  Meets (fun input _ more _ => ∃ kind cs, more = [.branch kind cs] ∧ Sole input more) p

theorem GrowsOne.growsNode (hp : GrowsOne p) : GrowsNode p :=
  fun input s => (hp input s).mono fun _ _ ⟨_, _, _, h⟩ => h

theorem GrowsOne.grows (hp : GrowsOne p) : Grows A p := hp.growsNode.grows

theorem GrowsOne.node {body : Parse Unit} (hkind : plain kind = true) (hbody : Grows anyLeaf body) :
    GrowsOne (node kind body) := by
  intro input s
  refine Adds.mono (Adds.sole (R := fun _ => True) ((hbody input _).mono fun _ _ h => ⟨h, trivial⟩)
    fun cs _ _ => ⟨orderly_of_plain hkind cs, formed_of_plain hkind cs⟩) ?_
  rintro more _ ⟨cs, hmore, h⟩
  exact ⟨kind, cs, hmore, h⟩

theorem GrowsNode.node {body : Parse Unit} (hkind : plain kind = true)
    (hbody : Grows anyLeaf body) : GrowsNode (node kind body) :=
  (GrowsOne.node hkind hbody).growsNode

theorem Grows.node {body : Parse Unit} (hkind : plain kind = true) (hbody : Grows anyLeaf body) :
    Grows A (node kind body) := (GrowsOne.node hkind hbody).grows

/-! ### Markers -/

section Since

variable {P Q R : Input → Outcomes} {p : Nat → Parse α}

theorem Since.mono (hp : Since P Q p) (hQR : ∀ input ts s, Q input ts s → R input ts s) :
    Since P R p := by
  intro input s h start new hadd hP
  obtain ⟨new', hnew, hQ⟩ := hp input s h start new hadd hP
  exact ⟨new', hnew, hQR _ _ _ hQ⟩

variable {M : Input → Outcomes} {q : Nat → Parse α}

theorem Since.bind {f : Nat → α → Parse β} (hp : Since P M p)
    (hf : ∀ a, Since M Q fun since => f since a) : Since P Q fun since => p since >>= f since := by
  intro input s h start new hadd hP
  obtain ⟨ts, hts, hM⟩ := hp input s h start new hadd hP
  exact hf _ input _ h start ts hts hM

theorem Since.seq {q : Nat → Parse β} (hp : Since P M p) (hq : Since M Q q) :
    Since P Q fun since => p since >>= fun _ => q since := hp.bind fun _ => hq

theorem Since.ite {c : Prop} [Decidable c] (hp : Since P Q p) (hq : Since P Q q) :
    Since P Q fun since => if c then p since else q since := by
  split
  · exact hp
  · exact hq

/-- `Since` where a look ahead tells where the parse goes on. -/
theorem Since.ifLook {look : Parse Bool} (hlook : ∀ input s, after look input s = s)
    (hp : Since (fun input ts s => P input ts s ∧ answer look input s = true) Q p)
    (hq : Since P Q q) :
    Since P Q fun since => look >>= fun found => if found = true then p since else q since := by
  intro input s h start new hadd hP
  rw [after_bind, hlook]
  split
  · next hfound => exact hp input s h start new hadd ⟨hP, hfound⟩
  · exact hq input s h start new hadd hP

/-- `peek` tells the kind of the next symbol. -/
theorem Since.peek {f : Nat → Option TokenKind → Parse α}
    (hf : ∀ kind, Since (fun input ts s => P input ts s ∧ input.kind? s.position = kind) Q
      fun since => f since kind) :
    Since P Q fun since => Grammar.peek >>= f since :=
  fun input s h start new hadd hP => hf _ input s h start new hadd ⟨hP, rfl⟩

theorem Since.of_pre (hp : Since M Q p) (hPM : ∀ input ts s, P input ts s → M input ts s) :
    Since P Q p := fun input s h start new hadd hP => hp input s h start new hadd (hPM _ _ _ hP)

/-- What was added since the marker stays, and the parse `Adds` to it. -/
theorem Since.of_adds {q : Parse α} (hq : ∀ input ts s, P input ts s →
    Adds input (fun us s' => Q input (ts ++ us) s') q s) : Since P Q fun _ => q := by
  intro input s h start new hadd hP
  obtain ⟨more, hmore, hQ⟩ := hq input new s hP h start new hadd
  exact ⟨new ++ more, hmore, hQ⟩

theorem Since.pure {a : α} : Since P P fun _ => (Pure.pure a : Parse α) :=
  fun _ _ _ _ new hadd hP => ⟨new, hadd, hP⟩

/-- `wrap` makes one node of what was added since the marker and what the body adds. -/
theorem Since.wrap {R : Input → List Tree → Prop} {kind : NodeKind} {body : Parse Unit}
    (hbody : ∀ input ts s b, P input ts s →
      Adds input (fun us _ => R input (ts ++ us)) body { s with builder := b })
    (hR : ∀ input cs, R input cs → Orderly input.kind? kind cs) :
    Since P (fun input ts _ => ∃ cs, ts = [.branch kind cs] ∧ R input cs)
      fun since => wrap since kind body := by
  intro input s h start new hadd hP
  have hopen : Added input ⟨kind, #[], ⟨h.kind, h.children⟩ :: h.around, h.problems, h.wrapped⟩
      start new { s with builder := s.builder.startAt h.children.size kind } := by
    have hn := hadd.noted
    refine ⟨?_, hadd.start_le, hadd.le_size, hadd.leaves, hadd.orderly,
      ⟨hn.kept, hn.fresh, hn.reached, hn.ordered, hn.wrapped_le, hn.marked⟩⟩
    show (s.builder.startAt h.children.size kind).frames = _
    rw [Tree.Builder.startAt, hadd.frames]
    simp
  obtain ⟨more, hmore, hcs⟩ := hbody input new s _ hP _ _ _ hopen
  exact ⟨_, hmore.finish (hR _ _ hcs), _, rfl, hcs⟩

/-- `marker` is set where nothing has been added yet. -/
theorem Adds.marker (hp : Since P Q p) (hP : P input [] s) :
    Adds input (Q input) (Grammar.marker >>= p) s := by
  intro h start new hadd
  have hmark : s.builder.marker = (h.children ++ new.toArray).size := by
    rw [hadd.marker_eq]
    simp
  have hafter : after (Grammar.marker >>= p) input s = after (p s.builder.marker) input s := rfl
  rw [hafter, hmark]
  obtain ⟨more, hmore, hQ⟩ := hp input s _ _ _ hadd.here hP
  exact ⟨more, hadd.trans hmore, hQ⟩

end Since

/-- The parse may put what was added since a marker into nodes, and keeps the leaves outside of nodes
in the set. -/
def GrowsSince (A : TokenKind → Prop) (p : Nat → Parse α) : Prop :=
  Since (fun input ts _ => Neat input A ts) (fun input ts _ => Neat input A ts) p

theorem GrowsSince.of_grows (hp : Grows A p) : GrowsSince A fun _ => p :=
  Since.of_adds fun input _ s hts => (hp input s).mono fun _ _ h => neat_append.mpr ⟨hts, h⟩

/-- `wrap` into a node that is `plain` may take in all well-formed trees. -/
theorem Since.wrap_plain {P : Input → Outcomes} {body : Parse Unit} (hkind : plain kind = true)
    (hP : ∀ input ts s, P input ts s → Neat input A ts) (hbody : Grows anyLeaf body) :
    Since P (fun input ts _ => ∃ cs, ts = [.branch kind cs] ∧ Neat input anyLeaf cs)
      fun since => Grammar.wrap since kind body := by
  refine .wrap (fun input ts s b hts => ?_) fun _ cs _ => orderly_of_plain hkind cs
  have hts' : Neat input anyLeaf ts := (hP input ts s hts).mono fun _ _ => trivial
  exact (hbody input _).mono fun us _ hus => neat_append.mpr ⟨hts', hus⟩

/-! ### Repetition -/

/-- `cutOff` adds nothing where a parse ends early. -/
theorem Adds.cutOff : Adds input (fun more s' => more = [] ∧ s' = { s with cutShort := true })
    cutOff s := by
  intro h start new hadd
  refine ⟨[], ?_, rfl, rfl⟩
  rw [append_nil]
  exact hadd.congr rfl rfl (hadd.noted.congr rfl rfl rfl)

theorem GrowsNode.cutOff : GrowsNode cutOff :=
  fun _ _ => Adds.cutOff.mono fun _ _ h => h.1 ▸ ⟨lone_nil, forall_mem_nil _⟩

theorem Grows.cutOff : Grows A cutOff := GrowsNode.cutOff.grows

theorem Grows.repeating {step : Parse Bool} (hstep : Grows A step) : Grows A (repeating step) :=
  Meets.repeating additive_neat Grows.cutOff hstep

section Since

variable {P : Input → Outcomes} {step : Nat → Parse Bool}

theorem Since.repeatUpTo
    (hcut : ∀ input ts s, P input ts s → P input ts { s with cutShort := true })
    (hstep : Since P P step) (n : Nat) : Since P P fun since => repeatUpTo (step since) n := by
  induction n with
  | zero =>
    intro input s h start new hadd hP
    exact ⟨new, hadd.congr rfl rfl (hadd.noted.congr rfl rfl rfl), hcut _ _ _ hP⟩
  | succ n ih => exact .bind hstep fun _ => .ite ih .pure

theorem Since.repeating
    (hcut : ∀ input ts s, P input ts s → P input ts { s with cutShort := true })
    (hstep : Since P P step) : Since P P fun since => repeating (step since) :=
  fun input => Since.repeatUpTo hcut hstep (input.symbols.size + 1) input

end Since

end Combinators

/-! ## Symbols -/

section Symbols

variable {A : TokenKind → Prop}

@[simp] theorem answer_peek (input : Input) (s : State) :
    answer peek input s = input.kind? s.position := rfl

@[simp] theorem answer_check (kind : TokenKind) (input : Input) (s : State) :
    answer (check kind) input s = (input.kind? s.position == some kind) := rfl

@[simp] theorem answer_atEnd (input : Input) (s : State) :
    answer atEnd input s = (input.kind? s.position).isNone := rfl

variable {n : Nat} {kind : TokenKind} {α : Type} {E : Effect} {p q : Parse α}
  {kinds : List TokenKind}

theorem Grows.peekAt : Grows A (Grammar.peekAt n) := .of_after_eq fun _ _ => rfl

theorem Grows.peek : Grows A Grammar.peek := .peekAt

theorem Grows.ahead : Grows A (Grammar.ahead n) := .of_after_eq fun _ _ => rfl

theorem Grows.check : Grows A (Grammar.check kind) := .of_after_eq fun _ _ => rfl

/-- `check` for a symbol of the kind tells where the parse goes on. -/
theorem Meets.ifCheck
    (hp : ∀ input s, input.kind? s.position = some kind → Adds input (E input s) p s)
    (hq : Meets E q) :
    Meets E (check kind >>= fun found => if found = true then p else q) := by
  intro input s
  refine Adds.look rfl ?_
  split
  · next hfound => exact hp input s (by simpa using hfound)
  · exact hq input s

/-- `checkAny` for a symbol of one of the kinds tells where the parse goes on. -/
theorem Meets.ifCheckAny (hp : ∀ input s, ∀ kind ∈ kinds, input.kind? s.position = some kind →
      Adds input (E input s) p s) (hq : Meets E q) :
    Meets E (checkAny kinds >>= fun found => if found = true then p else q) := by
  intro input s
  refine Adds.look rfl ?_
  split
  · next hfound =>
    rw [checkAny, answer_bind, answer_peek] at hfound
    cases hseen : input.kind? s.position with
    | none =>
      rw [hseen] at hfound
      cases hfound
    | some kind =>
      rw [hseen] at hfound
      exact hp input s kind (contains_iff_mem.mp hfound) hseen
  · exact hq input s

theorem Grows.checkAny : Grows A (Grammar.checkAny kinds) := .of_after_eq fun _ _ => rfl

theorem Grows.atEnd : Grows A Grammar.atEnd := .of_after_eq fun _ _ => rfl

theorem Grows.closedHere : Grows A Grammar.closedHere := .of_after_eq fun _ _ => rfl

theorem Grows.unexpected {expected : Expected} : Grows A (Grammar.unexpected expected) :=
  .bind .peek fun _ => .report

theorem Grows.eat (hA : A kind) : Grows A (Grammar.eat kind) := by
  intro input s
  refine Adds.look rfl ?_
  split
  · next hkind =>
    have hseen : input.kind? s.position = some kind := by simpa using hkind
    refine (Adds.bump_neat hseen hA).bind (Grows.pure (A := A) _ _) ?_
    exact fun _ _ _ h1 h2 => neat_append.mpr ⟨h1, h2⟩
  · exact Grows.pure input s

theorem Grows.skip (hA : A kind) : Grows A (Grammar.skip kind) :=
  fun input s => Grows.eat hA input s

theorem Grows.expectAny (hA : ∀ kind ∈ kinds, A kind) : Grows A (Grammar.expectAny kinds) := by
  intro input s
  refine Adds.look rfl ?_
  rw [answer_peek]
  cases hkind : input.kind? s.position with
  | none => exact Grows.report input s
  | some kind =>
    simp only
    split
    · next hmem =>
      exact Adds.bump_neat hkind (hA _ (by simpa using hmem))
    · exact Grows.report input s

theorem Grows.expect (hA : A kind) : Grows A (Grammar.expect kind) :=
  .expectAny fun _ hk => mem_singleton.mp hk ▸ hA

theorem Grows.expectMemberName : Grows anyLeaf Grammar.expectMemberName := by
  refine .bind .peek fun kind => ?_
  cases kind with
  | none => exact .expect trivial
  | some kind => exact .ite .bump (.expect trivial)

theorem Grows.expectEnd : Grows anyLeaf Grammar.expectEnd := by
  refine .cond (.eat trivial) .pure ?_
  exact .cond .closedHere .pure (.expect trivial)

theorem Grows.whileEating {parse : Parse Unit} (hA : A kind) (hparse : Grows A parse) :
    Grows A (Grammar.whileEating kind parse) :=
  .repeating (.cond (.eat hA) (.seq hparse .pure) .pure)

theorem Grows.commaSeparated {parse : Parse Unit} (hA : A .comma) (hparse : Grows A parse) :
    Grows A (Grammar.commaSeparated parse) := .seq hparse <| .whileEating hA hparse

theorem Grows.itemsUntil {close : TokenKind} {item : Parse Unit} (hA : A .comma)
    (hitem : Grows A item) : Grows A (Grammar.itemsUntil close item) :=
  .repeating (.bind .check fun _ => .cond .atEnd .pure (.seq hitem <| .eat hA))

end Symbols

end CodeLayout.Grammar
