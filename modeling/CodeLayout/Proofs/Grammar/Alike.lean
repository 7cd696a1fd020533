import CodeLayout.Proofs.Grammar.Clean

/-!
# How the rules are built

All rules are built from few parts: looks at the symbols ahead, symbols that are passed, nodes,
markers, loops, and calls of other rules.  `Alike f g` is the relation of two parses that are built
from the same parts in the same order, where one calls the rules `f` and the other the rules `g`.
What a parse does depends on the kinds of the symbols ahead, so the relation is one for each row of
kinds; it says of each symbol that is passed whether it is a brace, and that braces come in pairs.

A fact about all parses is proved by an induction over `Alike`, with one case for each part.
-/

namespace CodeLayout.Grammar

open List
open CodeLayout.Tree (braces)

/-! ## Symbols ahead -/

/-- The symbols from a position on. -/
def Input.rest (input : Input) (position : Nat) : List Symbol :=
  input.symbols.toList.drop position

/-- The kinds of the symbols from a position on. -/
def Input.kindsAt (input : Input) (position : Nat) : List TokenKind :=
  (input.rest position).map Symbol.kind

theorem kindsAt_getElem? (input : Input) (position n : Nat) :
    (input.kindsAt position)[n]? = input.kind? (position + n) := by
  rw [Input.kindsAt, Input.rest, getElem?_map, getElem?_drop, Array.getElem?_toList,
    Input.kind?]

theorem kindsAt_head? (input : Input) (position : Nat) :
    (input.kindsAt position).head? = input.kind? position := by
  rw [head?_eq_getElem?, kindsAt_getElem?, Nat.add_zero]

theorem kindsAt_tail (input : Input) (position : Nat) :
    (input.kindsAt position).tail = input.kindsAt (position + 1) := by
  rw [Input.kindsAt, Input.kindsAt, Input.rest, Input.rest, ← map_tail, tail_drop]

variable {input : Input} {kind : TokenKind}

theorem kindsAt_eq_cons {position : Nat} (h : input.kind? position = some kind) :
    input.kindsAt position = kind :: input.kindsAt (position + 1) := by
  rw [← kindsAt_tail]
  exact eq_cons_of_mem_head? (by rw [kindsAt_head?, h]; rfl)

/-- The parse only looks at the symbols ahead: it changes nothing, and its answer depends on nothing
else. -/
structure Looks {α : Type} (p : Parse α) : Prop where
  same : ∀ input s, after p input s = s
  ahead : ∀ {input input' s s'}, input.rest s.position = input'.rest s'.position →
    input.endClosed = input'.endClosed → answer p input s = answer p input' s'

/-- Where the kinds ahead are the given ones, the look can give the answer. -/
def Answers {α : Type} (p : Parse α) (kinds : List TokenKind) (x : α) : Prop :=
  ∃ input s, input.kindsAt s.position = kinds ∧ answer p input s = x

section Looks

variable {α β : Type} {kinds : List TokenKind}

theorem Looks.pure {x : α} : Looks (pure x : Parse α) := ⟨fun _ _ => rfl, fun _ _ => rfl⟩

variable {p : Parse α} {x : Option TokenKind}

theorem Looks.bind {f : α → Parse β} (hp : Looks p) (hf : ∀ x, Looks (f x)) : Looks (p >>= f) := by
  refine ⟨fun input s => ?_, fun {input input' s s'} hrest hend => ?_⟩
  · rw [after_bind, (hf _).same, hp.same]
  · rw [answer_bind, answer_bind, hp.ahead hrest hend]
    refine (hf _).ahead ?_ hend
    rw [hp.same, hp.same]
    exact hrest

theorem Looks.ite {c : Prop} [Decidable c] {q : Parse α} (hp : Looks p) (hq : Looks q) :
    Looks (if c then p else q) := by
  split
  · exact hp
  · exact hq

theorem looks_peekAt (n : Nat) : Looks (peekAt n) := by
  refine ⟨fun _ _ => rfl, fun {input input' s s'} hrest _ => ?_⟩
  have hanswer (input : Input) (s : State) :
      answer (peekAt n) input s = ((input.rest s.position)[n]?).map Symbol.kind := by
    rw [Input.rest, getElem?_drop, Array.getElem?_toList]
    rfl
  rw [hanswer, hanswer, hrest]

theorem looks_peek : Looks peek := looks_peekAt 0

theorem looks_check {kind : TokenKind} : Looks (check kind) := .bind looks_peek fun _ => .pure

theorem looks_checkAny : Looks (checkAny kinds) :=
  .bind looks_peek fun _ => .pure

theorem looks_atEnd : Looks atEnd := .bind looks_peek fun _ => .pure

theorem looks_checkModifier : Looks checkModifier := .bind looks_peek fun _ => .pure

theorem answer_ahead (n : Nat) (input : Input) (s : State) :
    answer (ahead n) input s = (input.kindsAt s.position).take n := by
  show ((input.symbols.extract s.position (s.position + n)).toList.map Symbol.kind) = _
  rw [Input.kindsAt, Input.rest, ← map_take, Array.toList_extract, extract_eq_take_drop,
    Nat.add_sub_cancel_left]

theorem looks_ahead (n : Nat) : Looks (ahead n) := by
  refine ⟨fun _ _ => rfl, fun hrest _ => ?_⟩
  rw [answer_ahead, answer_ahead, Input.kindsAt, Input.kindsAt, hrest]

theorem looks_closedHere : Looks closedHere := by
  refine ⟨fun _ _ => rfl, fun {input input' s s'} hrest hend => ?_⟩
  have hanswer (input : Input) (s : State) : answer closedHere input s =
      ((input.rest s.position).head?.map Symbol.closed).getD input.endClosed := by
    rw [head?_eq_getElem?, Input.rest, getElem?_drop, Array.getElem?_toList,
      Nat.add_zero, closedHere, answer_look rfl, answer_look rfl]
    split
    · next symbol h => rw [show input.symbols[s.position]? = some symbol from h]; rfl
    · next h => rw [show input.symbols[s.position]? = none from h]; rfl
  rw [hanswer, hanswer, hrest, hend]

theorem looks_atTypeStart : Looks atTypeStart := by
  refine .bind looks_peek fun kind => ?_
  split
  · exact .pure
  · exact .pure
  · exact .pure
  · exact .pure
  · exact .bind (looks_peekAt 1) fun _ => .pure
  · exact .pure

theorem looks_intersectionAhead : Looks intersectionAhead := by
  refine .bind looks_check fun _ => .ite (.bind (looks_peekAt 1) fun kind => ?_) .pure
  split <;> exact .pure

theorem looks_atExpressionEnd : Looks atExpressionEnd :=
  .bind looks_atEnd fun _ => .ite .pure (.bind looks_checkAny fun _ => .ite .pure looks_closedHere)

/-- `callAhead` sees all symbols ahead, however long the whole row is. -/
theorem looks_callAhead : Looks callAhead := by
  have hall : Looks (do ahead (← read).symbols.size) := by
    refine ⟨fun _ _ => rfl, fun {input input' s s'} hrest _ => ?_⟩
    have hanswer (input : Input) (s : State) :
        answer (do ahead (← read).symbols.size) input s = input.kindsAt s.position := by
      show answer (ahead input.symbols.size) input s = _
      rw [answer_ahead, take_of_length_le]
      rw [Input.kindsAt, Input.rest, length_map, length_drop, Array.length_toList]
      omega
    rw [hanswer, hanswer, Input.kindsAt, Input.kindsAt, hrest]
  have hbraces : Looks ((do ahead (← read).symbols.size) >>= fun kinds =>
      Pure.pure (callAfterBraces 1 (kinds.drop 2))) := .bind hall fun _ => .pure
  exact .bind (looks_peekAt 1) fun _ => .ite hbraces (.bind (looks_peekAt 2) fun _ => .pure)

theorem Answers.peekAt {n : Nat} (h : Answers (peekAt n) kinds x) : x = kinds[n]? := by
  obtain ⟨input, s, rfl, rfl⟩ := h
  rw [kindsAt_getElem?]
  rfl

theorem Answers.peek (h : Answers peek kinds x) : x = kinds.head? := by
  rw [head?_eq_getElem?]
  exact h.peekAt

end Looks

/-! ## Parts that end without a problem -/

section Parts

variable {input : Input} {s : State}

/-- `bump` passes a symbol and keeps the problems. -/
theorem not_clean_bump (h : ¬ Clean s) : ¬ Clean (after bump input s) := by
  show ¬ Clean (if _ then _ else _)
  split
  · exact h
  · exact h

variable {kind : TokenKind} {p : Parse Unit}

/-- `expect` without a problem: the symbol is there, and is passed. -/
theorem expect_clean (h : Clean (after (expect kind) input s)) :
    input.kind? s.position = some kind ∧ after (expect kind) input s = after bump input s := by
  rw [expect, expectAny, after_look rfl, answer_peek] at h ⊢
  cases hseen : input.kind? s.position with
  | none =>
    rw [hseen] at h
    exact absurd h not_clean_report
  | some found =>
    rw [hseen] at h
    dsimp only at h ⊢
    split at h
    · next hmem =>
      rw [if_pos hmem]
      exact ⟨by rw [mem_singleton.mp (contains_iff_mem.mp hmem)], rfl⟩
    · exact absurd h not_clean_report

theorem after_expect_seen (hseen : input.kind? s.position = some kind) :
    after (expect kind) input s = after bump input s := by
  rw [expect, expectAny, after_look rfl, answer_peek, hseen]
  exact congrArg (after · input s) (if_pos (by simp))

/-- `closeGuard` changes nothing where nothing was reported. -/
theorem closeGuard_clean {since : Nat} (h : Clean (after (closeGuard since) input s) ∨ Clean s) :
    Clean s ∧ after (closeGuard since) input s = s := by
  have hget : after (closeGuard since) input s =
      after (if s.problems.size > s.wrapped then do
          wrap since .error (pure ())
          modify fun s => { s with wrapped := s.problems.size }
        else pure ()) input s := rfl
  have hnone : s.problems = #[] := by
    rw [hget] at h
    rcases h with h | h
    · split at h
      · exact h.1
      · exact h.1
    · exact h.1
  have hle : ¬ s.problems.size > s.wrapped := by
    rw [hnone]
    exact Nat.not_lt_zero _
  rw [hget, if_neg hle] at h ⊢
  exact ⟨h.elim id id, rfl⟩

/-- `guarded` without a problem passes something, unless the end is reached. -/
theorem guarded_clean (h : Clean (after (guarded p) input s)) :
    Clean (after p input s) ∧ ((after p input s).position = s.position →
      input.kind? (after p input s).position = none) := by
  rw [after_guarded] at h
  split at h
  · -- a parse that passes nothing is reported
    exact absurd (closeGuard_clean (.inl h)).1 (not_clean_bump not_clean_report)
  · next hmoved =>
    refine ⟨(closeGuard_clean (.inl h)).1, fun hsame => ?_⟩
    simpa [hsame] using hmoved

/-- Then `guarded` does nothing else than the parse itself. -/
theorem after_guarded_clean (h : Clean (after p input s))
    (hmoved : (after p input s).position = s.position →
      input.kind? (after p input s).position = none) :
    after (guarded p) input s = after p input s := by
  rw [after_guarded, if_neg]
  · exact (closeGuard_clean (.inr h)).2
  · intro hstuck
    obtain ⟨hsame, hend⟩ := Bool.and_eq_true_iff.mp hstuck
    rw [answer_atEnd, hmoved (beq_iff_eq.mp hsame)] at hend
    cases hend

end Parts

/-! ## Parses built alike -/

/-- Pass everything inside of braces, behind the opening one. -/
def skipInside : Parse Unit := do
  skipBraces ((← read).symbols.size + 1) 1

/-- The parse passes the opening brace ahead, or asks for one. -/
def Opens (kinds : List TokenKind) (p : Parse Unit) : Prop :=
  p = expect .blockBegin ∨ p = bump ∧ kinds.head? = some .blockBegin

/-- What `Opens` without a problem has an opening brace ahead, and passes it. -/
theorem Opens.clean {kinds : List TokenKind} {p : Parse Unit} {s : State} (hopen : Opens kinds p)
    (hkinds : input.kindsAt s.position = kinds) (h : Clean (after p input s)) :
    input.kind? s.position = some .blockBegin ∧ after p input s = after bump input s := by
  rcases hopen with rfl | ⟨rfl, hhead⟩
  · exact expect_clean h
  · exact ⟨by rw [← kindsAt_head?, hkinds, hhead], rfl⟩

/-- Nodes of all kinds. -/
def anyNode (_ : NodeKind) : Prop := True

/-- The nodes that a rule adds outside of other nodes. -/
def Rule.makes : Rule → NodeKind → Prop
  | arguments => (· = .argList)
  | primary => fun kind => kind ≠ .propertyFetch ∧ kind ≠ .staticAccess
  | _ => anyNode

/-- Two parses are built from the same parts, one with the rules `f` and the other with `g`, where
the kinds of the symbols ahead are the given ones.  They add nodes of the kinds in `N`; what they
take over stands behind the markers `m` and `n`.  Without `calls`, only operands make nodes of
calls, inside of nodes or not. -/
inductive Alike (f g : Rules) : (calls : Bool) → (N : NodeKind → Prop) → {α : Type} →
    List TokenKind → (m n : Nat) → Parse α → Parse α → Prop where
  | pure {calls N α kinds m n} (x : α) : Alike f g calls N kinds m n (pure x) (pure x)
  | look {calls N α β kinds m n} {p : Parse α} {F G : α → Parse β} (hp : Looks p)
      (h : ∀ x, Answers p kinds x → Alike f g calls N kinds m n (F x) (G x)) :
      Alike f g calls N kinds m n (p >>= F) (p >>= G)
  /-- A symbol that is no brace is passed. -/
  | next {calls N α kind kinds m n} {F G : Unit → Parse α} (hkind : kind ∉ braces)
      (h : Alike f g calls N kinds m n (F ()) (G ())) :
      Alike f g calls N (kind :: kinds) m n (bump >>= F) (bump >>= G)
  | braced {calls N kinds m n opening} {p q : Parse Unit} (hopen : Opens kinds opening)
      (h : ∀ kinds', Alike f g calls N kinds' m n p q) :
      Alike f g calls N kinds m n (opening >>= fun _ => p >>= fun _ => expect .blockEnd)
        (opening >>= fun _ => q >>= fun _ => expect .blockEnd)
  /-- What is passed inside of the braces does not matter. -/
  | skipped {calls N kinds m n} : Alike f g calls N (.blockBegin :: kinds) m n
      (bump >>= fun _ => skipInside >>= fun _ => expect .blockEnd)
      (bump >>= fun _ => skipInside >>= fun _ => expect .blockEnd)
  | bind {calls N α β kinds m n} {p q : Parse α} {F G : α → Parse β}
      (hp : Alike f g calls N kinds m n p q)
      (h : ∀ x kinds', Alike f g calls N kinds' m n (F x) (G x)) :
      Alike f g calls N kinds m n (p >>= F) (q >>= G)
  /-- Only what the parses do at the symbols ahead matters. -/
  | of_eq {calls N α kinds m n} {p p' q q' : Parse α}
      (hp : ∀ input s, input.kindsAt s.position = kinds →
        (p.run input).run s = (p'.run input).run s)
      (hq : ∀ input s, input.kindsAt s.position = kinds →
        (q.run input).run s = (q'.run input).run s)
      (h : Alike f g calls N kinds m n p' q') : Alike f g calls N kinds m n p q
  /-- The symbols ahead lead to a problem. -/
  | refuses {calls N α kinds m n} {p q : Parse α}
      (hp : ∀ input s, input.kindsAt s.position = kinds → ¬ Clean (after p input s)) :
      Alike f g calls N kinds m n p q
  | nodeOf {calls N kinds m n kind p q} (hmade : N kind) (hkind : kind = .callExpr → calls = true)
      (h : Alike f g calls anyNode kinds 0 0 p q) :
      Alike f g calls N kinds m n (node kind p) (node kind q)
  | wrapOf {calls N kinds m n kind p q} (hmade : N kind) (hkind : kind = .callExpr → calls = true)
      (h : Alike f g calls anyNode kinds 0 0 p q) :
      Alike f g calls N kinds m n (wrap m kind p) (wrap n kind q)
  | marker {calls N α kinds m n} {F G : Nat → Parse α}
      (h : ∀ m' n', Alike f g calls N kinds m' n' (F m') (G n')) :
      Alike f g calls N kinds m n (marker >>= F) (marker >>= G)
  | repeating {calls N kinds m n step step'}
      (h : ∀ kinds', Alike f g calls N kinds' m n step step') :
      Alike f g calls N kinds m n (repeating step) (repeating step')
  | guarded {calls N kinds m n p q} (h : Alike f g calls N kinds m n p q) :
      Alike f g calls N kinds m n (guarded p) (guarded q)
  | ruleOf {calls N kinds m n} (rule : Rule) (hmade : ∀ kind, rule.makes kind → N kind) :
      Alike f g calls N kinds m n (f rule) (g rule)
  | operand {kinds m n} (h : Alike f g true anyNode kinds m n (operand f) (operand g)) :
      Alike f g false anyNode kinds m n (operand f) (operand g)

section Eat

variable {α : Type} {input : Input} {s : State} {kind : TokenKind} (p q : Parse α)

theorem run_eat_of_eq (hseen : input.kind? s.position = some kind) :
    ((eat kind >>= fun b => if b = true then p else q).run input).run s =
      ((bump >>= fun _ => p).run input).run s := by
  show ((((if (input.kind? s.position == some kind) = true then bump >>= fun _ => pure true
    else pure false : Parse Bool) >>= fun b => if b = true then p else q).run input).run s :
      α × State) = _
  rw [hseen, if_pos (beq_self_eq_true _)]
  rfl

theorem run_eat_of_ne (hseen : input.kind? s.position ≠ some kind) :
    ((eat kind >>= fun b => if b = true then p else q).run input).run s =
      (q.run input).run s := by
  show ((((if (input.kind? s.position == some kind) = true then bump >>= fun _ => pure true
    else pure false : Parse Bool) >>= fun b => if b = true then p else q).run input).run s :
      α × State) = _
  rw [if_neg (by simpa using hseen)]
  rfl

end Eat

theorem not_brace_of_isKeyword (h : kind.isKeyword = true) : kind ∉ braces := by
  intro hmem
  have hbraces : ∀ k ∈ braces, k.isKeyword = false := by decide
  rw [hbraces kind hmem] at h
  cases h

namespace Alike

variable {f g : Rules} {calls : Bool} {N : NodeKind → Prop} {α : Type} {kinds : List TokenKind}
  {m n : Nat}

variable {p q : Parse Unit} {c : Prop} {p' q' : Parse α} {F G : Option TokenKind → Parse α}
  {i : Nat} {kind : TokenKind} {among : List TokenKind} {cause : Cause}

theorem node {kind : NodeKind} (hkind : kind = .callExpr → calls = true)
    (h : Alike f g calls anyNode kinds 0 0 p q) :
    Alike f g calls anyNode kinds m n (Grammar.node kind p) (Grammar.node kind q) :=
  .nodeOf trivial hkind h

theorem wrap {kind : NodeKind} (hkind : kind = .callExpr → calls = true)
    (h : Alike f g calls anyNode kinds 0 0 p q) :
    Alike f g calls anyNode kinds m n (Grammar.wrap m kind p) (Grammar.wrap n kind q) :=
  .wrapOf trivial hkind h

theorem rule (rule : Rule) : Alike f g calls anyNode kinds m n (f rule) (g rule) :=
  .ruleOf rule fun _ _ => trivial

theorem ite [Decidable c] {p q : Parse α} (hp : c → Alike f g calls N kinds m n p p')
    (hq : ¬ c → Alike f g calls N kinds m n q q') :
    Alike f g calls N kinds m n (if c then p else q) (if c then p' else q') := by
  split
  · next hc => exact hp hc
  · next hc => exact hq hc

/-- A parse that may be left out. -/
theorem optional [Decidable c] {p' : Parse Unit} {q : Parse α}
    (hp : c → Alike f g calls N kinds m n p p') (hq : ∀ kinds', Alike f g calls N kinds' m n q q') :
    Alike f g calls N kinds m n (if c then p >>= fun _ => q else q)
      (if c then p' >>= fun _ => q' else q') :=
  .ite (fun hc => .bind (hp hc) fun _ _ => hq _) fun _ => hq _

/-! ### Looks -/

theorem peek (h : Alike f g calls N kinds m n (F kinds.head?) (G kinds.head?)) :
    Alike f g calls N kinds m n (Grammar.peek >>= F) (Grammar.peek >>= G) :=
  .look looks_peek fun _ hx => hx.peek ▸ h

theorem peekAt (h : Alike f g calls N kinds m n (F kinds[i]?) (G kinds[i]?)) :
    Alike f g calls N kinds m n (Grammar.peekAt i >>= F) (Grammar.peekAt i >>= G) :=
  .look (looks_peekAt i) fun _ hx => hx.peekAt ▸ h

theorem ahead {F G : List TokenKind → Parse α}
    (h : Alike f g calls N kinds m n (F (kinds.take i)) (G (kinds.take i))) :
    Alike f g calls N kinds m n (Grammar.ahead i >>= F) (Grammar.ahead i >>= G) := by
  refine .look (looks_ahead i) ?_
  rintro _ ⟨input, s, rfl, rfl⟩
  rwa [answer_ahead]

theorem check {F G : Bool → Parse α} (h : Alike f g calls N kinds m n (F (kinds.head? == some kind))
      (G (kinds.head? == some kind))) :
    Alike f g calls N kinds m n (Grammar.check kind >>= F) (Grammar.check kind >>= G) := by
  refine .look looks_check ?_
  rintro _ ⟨input, s, rfl, rfl⟩
  rwa [answer_check, ← kindsAt_head?]

/-- `Alike` where a look at the symbols says of which kind the next one is. -/
theorem whenSeen {look : Parse Bool} {K : TokenKind → Prop} {p q : Parse α} (hlook : Looks look)
    (hK : ∀ input s, answer look input s = true →
      ∃ kind, input.kind? s.position = some kind ∧ K kind)
    (hp : ∀ kind rest, K kind → Alike f g calls N (kind :: rest) m n p p')
    (hq : Alike f g calls N kinds m n q q') :
    Alike f g calls N kinds m n (look >>= fun b => if b = true then p else q)
      (look >>= fun b => if b = true then p' else q') := by
  refine .look hlook ?_
  rintro _ ⟨input, s, rfl, rfl⟩
  refine .ite (fun hyes => ?_) fun _ => hq
  obtain ⟨kind, hseen, hkind⟩ := hK input s hyes
  rw [kindsAt_eq_cons hseen]
  exact hp kind _ hkind

theorem when {p q : Parse α} (hp : ∀ rest, Alike f g calls N (kind :: rest) m n p p')
    (hq : Alike f g calls N kinds m n q q') :
    Alike f g calls N kinds m n (Grammar.check kind >>= fun b => if b = true then p else q)
      (Grammar.check kind >>= fun b => if b = true then p' else q') := by
  refine .whenSeen (K := (· = kind)) looks_check (fun input s h => ⟨kind, ?_, rfl⟩) ?_ hq
  · simpa using h
  · rintro _ rest rfl
    exact hp rest

theorem whenAny {p q : Parse α}
    (hp : ∀ kind ∈ among, ∀ rest, Alike f g calls N (kind :: rest) m n p p')
    (hq : Alike f g calls N kinds m n q q') :
    Alike f g calls N kinds m n (Grammar.checkAny among >>= fun b => if b = true then p else q)
      (Grammar.checkAny among >>= fun b => if b = true then p' else q') :=
  .whenSeen looks_checkAny (fun _ _ => seen_of_checkAny) (fun kind rest h => hp kind h rest) hq

/-! ### Symbols -/

theorem report : Alike f g calls N kinds m n (Grammar.report cause) q :=
  .refuses fun _ _ _ => not_clean_report

theorem unexpected {expected : Expected} :
    Alike f g calls N kinds m n (Grammar.unexpected expected) q :=
  .refuses fun _ _ _ => not_clean_report

/-- `Alike` behind a problem, where it does not matter what is passed. -/
theorem reported : Alike f g calls N kinds m n (Grammar.report cause >>= fun _ => Grammar.bump) q :=
  .refuses fun input s _ =>
    not_clean_bump (s := after (Grammar.report cause) input s) not_clean_report

/-- `Alike` where the first of the kinds ahead is known. -/
theorem of_seen {p q : Parse α} (hseen : kinds.head? = some kind)
    (h : ∀ rest, Alike f g calls N (kind :: rest) m n p q) : Alike f g calls N kinds m n p q := by
  obtain ⟨rest, rfl⟩ := head?_eq_some_iff.mp hseen
  exact h rest

theorem bump (hkind : kind ∉ braces) :
    Alike f g calls N (kind :: kinds) m n Grammar.bump Grammar.bump :=
  .of_eq (fun _ _ _ => rfl) (fun _ _ _ => rfl)
    (.next hkind (.pure ()) : Alike f g calls N (kind :: kinds) m n
      (Grammar.bump >>= fun _ => Pure.pure ()) (Grammar.bump >>= fun _ => Pure.pure ()))

theorem expectAny (hamong : ∀ kind ∈ among, kind ∉ braces) :
    Alike f g calls N kinds m n (Grammar.expectAny among) (Grammar.expectAny among) := by
  refine .peek ?_
  cases kinds with
  | nil => exact .report
  | cons kind rest =>
    exact .ite (fun h => .bump (hamong kind (contains_iff_mem.mp h))) fun _ => .report

theorem expect (hkind : kind ∉ braces) :
    Alike f g calls N kinds m n (Grammar.expect kind) (Grammar.expect kind) :=
  .expectAny fun _ h => mem_singleton.mp h ▸ hkind

theorem eat (hkind : kind ∉ braces) :
    Alike f g calls N kinds m n (Grammar.eat kind) (Grammar.eat kind) :=
  .when (fun _ => .next hkind (.pure true)) (.pure false)

theorem skip (hkind : kind ∉ braces) :
    Alike f g calls N kinds m n (Grammar.skip kind) (Grammar.skip kind) :=
  .bind (.eat hkind) fun _ _ => .pure ()

/-- `eat` where a symbol of the kind is ahead. -/
theorem eaten {p q : Parse α} (hkind : kinds.head? = some kind)
    (h : Alike f g calls N kinds m n (Grammar.bump >>= fun _ => p) (Grammar.bump >>= fun _ => p')) :
    Alike f g calls N kinds m n (Grammar.eat kind >>= fun b => if b = true then p else q)
      (Grammar.eat kind >>= fun b => if b = true then p' else q') := by
  have hseen {input : Input} {s : State} (hkinds : input.kindsAt s.position = kinds) :
      input.kind? s.position = some kind := by rw [← kindsAt_head?, hkinds, hkind]
  exact .of_eq (fun _ _ hkinds => run_eat_of_eq p q (hseen hkinds))
    (fun _ _ hkinds => run_eat_of_eq p' q' (hseen hkinds)) h

/-- `eat` where no symbol of the kind is ahead. -/
theorem uneaten {p q : Parse α} (hkind : kinds.head? ≠ some kind)
    (h : Alike f g calls N kinds m n q q') :
    Alike f g calls N kinds m n (Grammar.eat kind >>= fun b => if b = true then p else q)
      (Grammar.eat kind >>= fun b => if b = true then p' else q') := by
  have hseen {input : Input} {s : State} (hkinds : input.kindsAt s.position = kinds) :
      input.kind? s.position ≠ some kind := by rwa [← kindsAt_head?, hkinds]
  exact .of_eq (fun _ _ hkinds => run_eat_of_ne p q (hseen hkinds))
    (fun _ _ hkinds => run_eat_of_ne p' q' (hseen hkinds)) h

/-- `Alike` with braces around a parse, if there is an opening one. -/
theorem eatBraces {p' q' : Parse Unit} (hp : ∀ kinds', Alike f g calls N kinds' m n p p')
    (hq : Alike f g calls N kinds m n q q') :
    Alike f g calls N kinds m n
      (Grammar.eat .blockBegin >>= fun b =>
        if b = true then p >>= fun _ => Grammar.expect .blockEnd else q)
      (Grammar.eat .blockBegin >>= fun b =>
        if b = true then p' >>= fun _ => Grammar.expect .blockEnd else q') := by
  by_cases hopen : kinds.head? = some .blockBegin
  · exact .eaten hopen (.braced (.inr ⟨rfl, hopen⟩) hp)
  · exact .uneaten hopen hq

theorem expectMemberName :
    Alike f g calls N kinds m n Grammar.expectMemberName Grammar.expectMemberName := by
  refine .peek ?_
  cases kinds with
  | nil => exact .expect (by decide)
  | cons kind rest =>
    exact .ite (fun h => .bump (not_brace_of_isKeyword h)) fun _ => .expect (by decide)

theorem expectEnd : Alike f g calls N kinds m n Grammar.expectEnd Grammar.expectEnd := by
  refine .bind (.eat (by decide)) fun _ _ => .ite (fun _ => .pure ()) fun _ => ?_
  exact .look looks_closedHere fun _ _ => .ite (fun _ => .pure ()) fun _ => .expect (by decide)

/-! ### Repetition -/

theorem whileEating (hkind : kind ∉ braces) (h : ∀ kinds', Alike f g calls N kinds' m n p q) :
    Alike f g calls N kinds m n (Grammar.whileEating kind p) (Grammar.whileEating kind q) :=
  .repeating fun _ => .bind (.eat hkind) fun _ _ =>
    .ite (fun _ => .bind (h _) fun _ _ => .pure true) fun _ => .pure false

theorem commaSeparated (h : ∀ kinds', Alike f g calls N kinds' m n p q) :
    Alike f g calls N kinds m n (Grammar.commaSeparated p) (Grammar.commaSeparated q) :=
  .bind (h _) fun _ _ => .whileEating (by decide) h

theorem itemsUntil {close : TokenKind} (h : ∀ kinds', Alike f g calls N kinds' m n p q) :
    Alike f g calls N kinds m n (Grammar.itemsUntil close p) (Grammar.itemsUntil close q) :=
  .repeating fun _ => .look looks_check fun _ _ => .look looks_atEnd fun _ _ =>
    .ite (fun _ => .pure false) fun _ => .bind (h _) fun _ _ => .eat (by decide)

/-! ### Calls -/

theorem expr : Alike f g calls anyNode kinds m n f.expr g.expr := .rule (.expression _)

theorem atLeast (power : Power) :
    Alike f g calls anyNode kinds m n (f.atLeast power) (g.atLeast power) :=
  .rule (.expression _)

theorem above (power : Power) : Alike f g calls anyNode kinds m n (f.above power) (g.above power) :=
  .rule (.expression _)

theorem condition : Alike f g calls anyNode kinds m n f.condition g.condition :=
  .bind (.expect (by decide)) fun _ _ => .bind .expr fun _ _ => .expect (by decide)

end Alike

end CodeLayout.Grammar
