import CodeLayout.Proofs.Grammar.Fronts
import Mathlib.Order.Nat

/-!
# Progress of a parse

A parse only goes forward, and its loops and its recursion end by themselves: the bounds that they
are given are never reached.  `Advances k p` says so of a parse that starts at the position `k` or
behind it.  `Passes k K p` says more: where the next symbol is of a kind in `K`, the parse passes
it.  What follows a parse that passes a symbol has to be known from the position `k + 1` on only,
which is what the recursion of the grammar rests on.

A loop ends because each of its steps that goes on passes a symbol (`Steps`).
-/

namespace CodeLayout.Grammar

/-- The second state lies ahead of the first one, within the input, and no bound was reached
between them. -/
structure Forward (input : Input) (s s' : State) : Prop where
  position_le : s.position ≤ s'.position
  le_size : s'.position ≤ input.symbols.size
  cutShort : s'.cutShort = s.cutShort

/-- From a position on, the parse goes forward, and no bound ends it. -/
def Advances {α : Type} (input : Input) (k : Nat) (p : Parse α) : Prop :=
  ∀ s, k ≤ s.position → s.position ≤ input.symbols.size → Forward input s (after p input s)

/-- From a position on, the parse passes at least the next symbol, if it is of one of the kinds. -/
def Passes {α : Type} (input : Input) (k : Nat) (K : TokenKind → Prop) (p : Parse α) : Prop :=
  ∀ s kind, k ≤ s.position → input.kind? s.position = some kind → K kind →
    Forward input s (after p input s) ∧ s.position < (after p input s).position

/-- From a position on, the step goes forward, and it passes a symbol if it answers that there is
more to do. -/
def Steps (input : Input) (k : Nat) (step : Parse Bool) : Prop :=
  ∀ s, k ≤ s.position → s.position ≤ input.symbols.size → Forward input s (after step input s) ∧
    (answer step input s = true → s.position < (after step input s).position)

/-- The parse only looks, and says yes only at a symbol of one of the kinds. -/
def Sees (input : Input) (K : TokenKind → Prop) (look : Parse Bool) : Prop :=
  ∀ s, after look input s = s ∧
    (answer look input s = true → ∃ kind, input.kind? s.position = some kind ∧ K kind)

section Combinators

variable {α β : Type} {input : Input} {s s' s'' : State} {k : Nat} {K : TokenKind → Prop}
  {kind : TokenKind}

/-! ## Positions -/

theorem Forward.refl (hs : s.position ≤ input.symbols.size) : Forward input s s :=
  ⟨Nat.le_refl _, hs, rfl⟩

theorem Forward.trans (h : Forward input s s') (h' : Forward input s' s'') : Forward input s s'' :=
  ⟨h.position_le.trans h'.position_le, h'.le_size, h'.cutShort.trans h.cutShort⟩

/-! ## Parses in a row -/

variable {k' since : Nat} {p q : Parse α} {f : α → Parse β} {c : Prop} {nodeKind : NodeKind}
  {kinds : List TokenKind}

theorem Advances.mono (hp : Advances input k p) (hk : k ≤ k') :
    Advances input k' p := fun s hs => hp s (hk.trans hs)

theorem Passes.mono {L : TokenKind → Prop} (hp : Passes input k K p) (hk : k ≤ k')
    (hL : ∀ kind, L kind → K kind) : Passes input k' L p :=
  fun s kind hs hkind hmem => hp s kind (hk.trans hs) hkind (hL kind hmem)

theorem Advances.pure {a : α} : Advances input k (pure a : Parse α) := fun _ _ hs => .refl hs

theorem Advances.bind (hp : Advances input k p) (hf : ∀ a, Advances input k (f a)) :
    Advances input k (p >>= f) := by
  intro s hk hs
  have hfirst := hp s hk hs
  exact hfirst.trans (hf _ _ (hk.trans hfirst.position_le) hfirst.le_size)

theorem Advances.seq {q : Parse β} (hp : Advances input k p) (hq : Advances input k q) :
    Advances input k (p >>= fun _ => q) := hp.bind fun _ => hq

/-- What follows a symbol that the parse `Passes` starts one position later. -/
theorem Passes.bind (hp : Passes input k K p) (hf : ∀ a, Advances input (k + 1) (f a)) :
    Passes input k K (p >>= f) := by
  intro s kind hk hkind hK
  obtain ⟨hfirst, hlt⟩ := hp s kind hk hkind hK
  have hrest := hf (answer p input s) _ (Nat.succ_le_of_lt (hk.trans_lt hlt)) hfirst.le_size
  exact ⟨hfirst.trans hrest, hlt.trans_le hrest.position_le⟩

theorem Passes.seq {q : Parse β} (hp : Passes input k K p) (hq : Advances input (k + 1) q) :
    Passes input k K (p >>= fun _ => q) := hp.bind fun _ => hq

theorem Advances.ite [Decidable c] (hp : Advances input k p) (hq : Advances input k q) :
    Advances input k (if c then p else q) := by
  split
  · exact hp
  · exact hq

theorem Advances.cond {C : α → Prop} [∀ a, Decidable (C a)] {q r : Parse β}
    (hp : Advances input k p) (hq : Advances input k q) (hr : Advances input k r) :
    Advances input k (p >>= fun a => if C a then q else r) := hp.bind fun _ => .ite hq hr

/-- `Advances` for a parse that may be left out. -/
theorem Advances.optional {C : α → Prop} [∀ a, Decidable (C a)] {q : Parse Unit} {r : Parse β}
    (hp : Advances input k p) (hq : Advances input k q) (hr : Advances input k r) :
    Advances input k (p >>= fun a => if C a then q >>= fun _ => r else r) := hp.cond (hq.seq hr) hr

theorem Passes.ite [Decidable c] (hp : Passes input k K p) (hq : Passes input k K q) :
    Passes input k K (if c then p else q) := by
  split
  · exact hp
  · exact hq

theorem Advances.of_after_eq (hp : ∀ s, after p input s = s) : Advances input k p := by
  intro s _ hs
  rw [hp]
  exact .refl hs

/-- `after` a look at the symbols, what follows starts where the look did. -/
theorem after_look (hp : after p input s = s) :
    after (p >>= f) input s = after (f (answer p input s)) input s := by rw [after_bind, hp]

theorem answer_look (hp : after p input s = s) :
    answer (p >>= f) input s = answer (f (answer p input s)) input s := by
  show answer (f (answer p input s)) input (after p input s) = _
  rw [hp]

theorem after_repeatUpTo_succ (step : Parse Bool) (n : Nat) :
    after (repeatUpTo step (n + 1)) input s =
      after (if answer step input s = true then repeatUpTo step n else pure ()) input
        (after step input s) := rfl

/-- `Passes` behind a look at the symbols, which changes nothing. -/
theorem Passes.look (hp : ∀ s, after p input s = s) (hf : ∀ a, Passes input k K (f a)) :
    Passes input k K (p >>= f) := by
  intro s kind hk hkind hK
  rw [after_look (hp s)]
  exact hf _ s kind hk hkind hK

/-- `Advances` for a branch that is taken only at a symbol of one of the kinds. -/
theorem Advances.when {look : Parse Bool} (hlook : Sees input K look) (hp : Passes input k K p)
    (hq : Advances input k q) :
    Advances input k (look >>= fun b => if b = true then p else q) := by
  intro s hk hs
  rw [after_look (hlook s).1]
  split
  · next hyes =>
    obtain ⟨kind, hseen, hK⟩ := (hlook s).2 hyes
    exact (hp s kind hk hseen hK).1
  · exact hq s hk hs

theorem Advances.report {cause : Cause} : Advances input k (report cause) :=
  fun _ _ hs => ⟨Nat.le_refl _, hs, rfl⟩

theorem Advances.bump : Advances input k bump := by
  intro s _ hs
  show Forward input s (if _ then _ else _)
  split
  · next hlt => exact ⟨Nat.le_succ _, hlt, rfl⟩
  · exact .refl hs

theorem Passes.bump : Passes input k K bump := by
  intro s kind hk hkind _
  have hlt := lt_size_of_kind? hkind
  refine ⟨Advances.bump s hk hlt.le, ?_⟩
  show _ < (if _ then _ else _ : State).position
  rw [if_pos hlt]
  exact Nat.lt_succ_self _

/-! ## Nodes -/

theorem Advances.node {body : Parse Unit} (hbody : Advances input k body) :
    Advances input k (node nodeKind body) := by
  intro s hk hs
  have h := hbody { s with builder := s.builder.start nodeKind } hk hs
  exact ⟨h.position_le, h.le_size, h.cutShort⟩

theorem Passes.node {body : Parse Unit} (hbody : Passes input k K body) :
    Passes input k K (node nodeKind body) := by
  intro s kind hk hkind hK
  obtain ⟨h, hlt⟩ := hbody { s with builder := s.builder.start nodeKind } kind hk hkind hK
  exact ⟨⟨h.position_le, h.le_size, h.cutShort⟩, hlt⟩

theorem Advances.wrap {body : Parse Unit} (hbody : Advances input k body) :
    Advances input k (wrap since nodeKind body) := by
  intro s hk hs
  have h := hbody { s with builder := s.builder.startAt since nodeKind } hk hs
  exact ⟨h.position_le, h.le_size, h.cutShort⟩

theorem Passes.wrap {body : Parse Unit} (hbody : Passes input k K body) :
    Passes input k K (wrap since nodeKind body) := by
  intro s kind hk hkind hK
  obtain ⟨h, hlt⟩ := hbody { s with builder := s.builder.startAt since nodeKind } kind hk hkind hK
  exact ⟨⟨h.position_le, h.le_size, h.cutShort⟩, hlt⟩

theorem Advances.marker {p : Nat → Parse α} (hp : ∀ since, Advances input k (p since)) :
    Advances input k (Grammar.marker >>= p) := .bind (.of_after_eq fun _ => rfl) hp

/-! ## Symbols -/

theorem Advances.peekAt {n : Nat} : Advances input k (Grammar.peekAt n) := .of_after_eq fun _ => rfl

theorem Advances.peek : Advances input k Grammar.peek := .peekAt

theorem Advances.check : Advances input k (Grammar.check kind) := .of_after_eq fun _ => rfl

theorem Advances.checkAny : Advances input k (Grammar.checkAny kinds) := .of_after_eq fun _ => rfl

theorem sees_check : Sees input (· = kind) (check kind) := by
  refine fun s => ⟨rfl, fun h => ⟨kind, ?_, rfl⟩⟩
  simpa using h

/-- `checkAny` finds a symbol to be of one of the kinds if it is. -/
theorem seen_of_checkAny (h : answer (checkAny kinds) input s = true) :
    ∃ kind, input.kind? s.position = some kind ∧ kind ∈ kinds := by
  rw [checkAny, answer_look rfl, answer_peek] at h
  cases hseen : input.kind? s.position with
  | none =>
    rw [hseen] at h
    cases h
  | some kind =>
    rw [hseen] at h
    exact ⟨kind, rfl, List.contains_iff_mem.mp h⟩

theorem sees_checkAny : Sees input anyLeaf (checkAny kinds) := by
  refine fun s => ⟨rfl, fun h => ?_⟩
  obtain ⟨kind, hseen, -⟩ := seen_of_checkAny h
  exact ⟨kind, hseen, trivial⟩

theorem Advances.atEnd : Advances input k Grammar.atEnd := .of_after_eq fun _ => rfl

theorem Advances.closedHere : Advances input k Grammar.closedHere := .of_after_eq fun _ => rfl

theorem Advances.unexpected {expected : Expected} : Advances input k (Grammar.unexpected expected) :=
  .bind .peek fun _ => .report

/-- `eat` passes a symbol of the kind, and leaves any other where it is. -/
theorem after_eat (kind : TokenKind) (input : Input) (s : State) :
    (input.kind? s.position = some kind ∧ answer (eat kind) input s = true ∧
      after (eat kind) input s = after bump input s) ∨
    input.kind? s.position ≠ some kind ∧ answer (eat kind) input s = false ∧
      after (eat kind) input s = s := by
  unfold eat
  rw [after_look rfl, answer_look rfl, answer_check]
  by_cases hseen : input.kind? s.position = some kind
  · rw [hseen, if_pos (beq_self_eq_true _)]
    exact .inl ⟨rfl, rfl, rfl⟩
  · rw [if_neg (by simpa using hseen)]
    exact .inr ⟨hseen, rfl, rfl⟩

theorem Advances.eat : Advances input k (Grammar.eat kind) := by
  intro s hk hs
  rcases after_eat kind input s with ⟨-, -, heq⟩ | ⟨-, -, heq⟩
  · rw [heq]
    exact Advances.bump s hk hs
  · rw [heq]
    exact .refl hs

/-- `eat` before a branch: that goes on from behind the symbol. -/
theorem ifEat_cases {r r' : Parse α} (hr : Advances input (k + 1) r) (hk : k ≤ s.position) :
    let p := Grammar.eat kind >>= fun b => if b = true then r else r'
    after p input s = after r' input s ∧ answer p input s = answer r' input s ∨
      Forward input s (after p input s) ∧ s.position < (after p input s).position := by
  dsimp only
  rw [after_bind, answer_bind]
  rcases after_eat kind input s with ⟨hseen, hanswer, hafter⟩ | ⟨-, hanswer, hafter⟩
  · rw [hanswer, hafter, if_pos rfl]
    obtain ⟨hbump, hlt⟩ := Passes.bump (K := anyLeaf) s kind hk hseen trivial
    have hrest := hr _ (Nat.succ_le_of_lt (hk.trans_lt hlt)) hbump.le_size
    exact .inr ⟨hbump.trans hrest, hlt.trans_le hrest.position_le⟩
  · rw [hanswer, hafter, if_neg Bool.false_ne_true]
    exact .inl ⟨rfl, rfl⟩

theorem Advances.ifEat (hp : Advances input (k + 1) p) (hq : Advances input k q) :
    Advances input k (Grammar.eat kind >>= fun b => if b = true then p else q) := by
  intro s hk hs
  rcases ifEat_cases hp hk with ⟨heq, -⟩ | ⟨hforward, -⟩
  · rw [heq]
    exact hq s hk hs
  · exact hforward

theorem Passes.ifEat (hp : Advances input (k + 1) p) (hq : Passes input k K q) :
    Passes input k K (Grammar.eat kind >>= fun b => if b = true then p else q) := by
  intro s next hk hnext hK
  rcases ifEat_cases hp hk with ⟨heq, -⟩ | hforward
  · rw [heq]
    exact hq s next hk hnext hK
  · exact hforward

theorem Advances.skip : Advances input k (Grammar.skip kind) :=
  fun s hk hs => (Advances.eat : Advances input k (Grammar.eat kind)) s hk hs

theorem passes_skip : Passes input k (· = kind) (skip kind) := by
  rintro s kind hk hseen rfl
  have hpasses := Passes.bump (K := anyLeaf) s kind hk hseen trivial
  rcases after_eat kind input s with ⟨-, -, hafter⟩ | ⟨hne, -⟩
  · rwa [← hafter] at hpasses
  · exact absurd hseen hne

theorem after_skip_of_ne {other : TokenKind} (hseen : input.kind? s.position = some other)
    (hne : other ≠ kind) : after (skip kind) input s = s := by
  rcases after_eat kind input s with ⟨hkind, -⟩ | ⟨-, -, hafter⟩
  · rw [hseen] at hkind
    exact absurd (Option.some.inj hkind) hne
  · exact hafter

theorem Advances.expectAny : Advances input k (Grammar.expectAny kinds) := by
  refine .bind .peek fun next => ?_
  cases next with
  | none => exact .report
  | some next => exact .ite .bump .report

theorem Advances.expect : Advances input k (Grammar.expect kind) := .expectAny

theorem passes_expect : Passes input k (· = kind) (expect kind) := by
  rintro s kind hk hseen rfl
  have hafter : after (expect kind) input s = after bump input s := by
    rw [expect, expectAny, after_look rfl, answer_peek, hseen]
    dsimp only
    rw [if_pos (by simp)]
  rw [hafter]
  exact Passes.bump (K := anyLeaf) s kind hk hseen trivial

theorem Advances.expectMemberName : Advances input k Grammar.expectMemberName := by
  refine .bind .peek fun next => ?_
  cases next with
  | none => exact .expect
  | some next => exact .ite .bump .expect

theorem Advances.expectEnd : Advances input k Grammar.expectEnd := by
  refine .cond .eat .pure ?_
  exact .cond .closedHere .pure .expect

/-! ## Loops -/

section Loops

variable {step : Parse Bool}

theorem Steps.done : Steps input k (Pure.pure false) :=
  fun _ _ hs => ⟨.refl hs, fun h => absurd h Bool.false_ne_true⟩

theorem Steps.eat : Steps input k (Grammar.eat kind) := by
  intro s hk hs
  refine ⟨Advances.eat s hk hs, fun hanswer => ?_⟩
  rcases after_eat kind input s with ⟨hseen, -, heq⟩ | ⟨-, hfalse, -⟩
  · rw [heq]
    exact (Passes.bump (K := anyLeaf) s kind hk hseen trivial).2
  · rw [hfalse] at hanswer
    cases hanswer

variable {q : Parse Bool} {p : Parse Unit}

theorem Steps.ite {c : Prop} [Decidable c] (hp : Steps input k step) (hq : Steps input k q) :
    Steps input k (if c then step else q) := by
  split
  · exact hp
  · exact hq

theorem Steps.bind {p : Parse α} {f : α → Parse Bool} (hp : Advances input k p)
    (hf : ∀ a, Steps input k (f a)) : Steps input k (p >>= f) := by
  intro s hk hs
  have hfirst := hp s hk hs
  obtain ⟨hrest, hlt⟩ := hf (answer p input s) _ (hk.trans hfirst.position_le) hfirst.le_size
  exact ⟨hfirst.trans hrest, fun h => hfirst.position_le.trans_lt (hlt h)⟩

theorem Steps.seq {p : Parse α} (hp : Advances input k p) (hstep : Steps input k step) :
    Steps input k (p >>= fun _ => step) := .bind hp fun _ => hstep

theorem Steps.cond {C : α → Prop} [∀ a, Decidable (C a)] {p : Parse α} (hp : Advances input k p)
    (hstep : Steps input k step) (hq : Steps input k q) :
    Steps input k (p >>= fun a => if C a then step else q) := .bind hp fun _ => .ite hstep hq

/-- At a symbol of one of the kinds, what `Steps` passes one and goes on. -/
theorem Steps.when {look : Parse Bool} (hlook : Sees input K look) (hp : Passes input k K p)
    (hq : Steps input k q) :
    Steps input k (look >>= fun b =>
      if b = true then (p >>= fun _ => Pure.pure true) else q) := by
  intro s hk hs
  rw [after_look (hlook s).1, answer_look (hlook s).1]
  split
  · next hyes =>
    obtain ⟨kind, hseen, hK⟩ := (hlook s).2 hyes
    obtain ⟨hfirst, hlt⟩ := hp s kind hk hseen hK
    exact ⟨hfirst, fun _ => hlt⟩
  · exact hq s hk hs

/-- What `Steps` may do anything behind a symbol of the kind. -/
theorem Steps.ifEat {p : Parse Bool} (hp : Advances input (k + 1) p) (hq : Steps input k q) :
    Steps input k (Grammar.eat kind >>= fun b => if b = true then p else q) := by
  intro s hk hs
  rcases ifEat_cases hp hk with ⟨hafter, hanswer⟩ | ⟨hforward, hlt⟩
  · rw [hafter, hanswer]
    exact hq s hk hs
  · exact ⟨hforward, fun _ => hlt⟩

/-- `Steps` unless a look at the symbols says otherwise, which it does at the end. -/
theorem Steps.unless {c : Parse Bool} (hlook : ∀ s, after c input s = s)
    (hend : ∀ s, input.kind? s.position = none → answer c input s = true)
    (hp : Passes input k anyLeaf p) :
    Steps input k (c >>= fun b =>
      if b = true then Pure.pure false else p >>= fun _ => Pure.pure true) := by
  intro s hk hs
  rw [after_look (hlook s), answer_look (hlook s)]
  cases hseen : input.kind? s.position with
  | none =>
    rw [if_pos (hend s hseen)]
    exact Steps.done s hk hs
  | some kind =>
    split
    · exact Steps.done s hk hs
    · obtain ⟨hfirst, hlt⟩ := hp s kind hk hseen trivial
      exact ⟨hfirst, fun _ => hlt⟩

section

variable (hstep : Steps input k step)
include hstep

/-- `repeatUpTo` with more steps than there are symbols left ends by itself: it stops where its step
answers so. -/
theorem Steps.repeatUpTo (n : Nat) (s : State) (hk : k ≤ s.position)
    (hs : s.position ≤ input.symbols.size) (hn : input.symbols.size < s.position + n) :
    ∃ s', Forward input s s' ∧ answer step input s' = false ∧
      after (repeatUpTo step n) input s = after step input s' := by
  induction n generalizing s with
  | zero =>
    -- there are no more symbols left than steps, so a step is left
    omega
  | succ n ih =>
    obtain ⟨hfirst, hlt⟩ := hstep s hk hs
    have hunfold : after (Grammar.repeatUpTo step (n + 1)) input s =
        after (if answer step input s = true then Grammar.repeatUpTo step n else Pure.pure ())
          input (after step input s) := rfl
    rw [hunfold]
    cases hanswer : answer step input s with
    | false => exact ⟨s, .refl hs, hanswer, rfl⟩
    | true =>
      -- the step passed a symbol: one step less is enough for one symbol less
      have := hlt hanswer
      obtain ⟨s', hforward, hstop, hafter⟩ := ih (after step input s)
        (hk.trans hfirst.position_le) hfirst.le_size (by omega)
      exact ⟨s', hfirst.trans hforward, hstop, hafter⟩

/-- `repeating` stops where its step answers so. -/
theorem Steps.repeating_stops (hk : k ≤ s.position)
    (hs : s.position ≤ input.symbols.size) :
    ∃ s', Forward input s s' ∧ answer step input s' = false ∧
      after (repeating step) input s = after step input s' :=
  hstep.repeatUpTo (input.symbols.size + 1) s hk hs (by omega)

theorem Advances.repeating : Advances input k (repeating step) := by
  intro s hk hs
  obtain ⟨s', hforward, -, hafter⟩ := hstep.repeating_stops hk hs
  rw [hafter]
  exact hforward.trans (hstep s' (hk.trans hforward.position_le) hforward.le_size).1

/-- `repeating` passes a symbol if its first step goes on. -/
theorem Steps.repeating_passes (hk : k ≤ s.position)
    (hs : s.position ≤ input.symbols.size) (hfirst : answer step input s = true) :
    s.position < (after (repeating step) input s).position := by
  obtain ⟨hforward, hlt⟩ := hstep s hk hs
  have hunfold : after (repeating step) input s =
      after (if answer step input s = true then Grammar.repeatUpTo step input.symbols.size
        else Pure.pure ()) input (after step input s) := rfl
  rw [hunfold, if_pos hfirst]
  obtain ⟨s', hforward', -, hafter⟩ := hstep.repeatUpTo input.symbols.size (after step input s)
    (hk.trans hforward.position_le) hforward.le_size (by have := hlt hfirst; omega)
  rw [hafter]
  have hlast := hstep s' ((hk.trans hforward.position_le).trans hforward'.position_le)
    hforward'.le_size
  exact (hlt hfirst).trans_le (hforward'.position_le.trans hlast.1.position_le)

end

theorem Advances.whileEating (hp : Advances input (k + 1) p) :
    Advances input k (Grammar.whileEating kind p) := .repeating (.ifEat (.seq hp .pure) .done)

theorem Advances.commaSeparated (hp : Advances input k p) :
    Advances input k (Grammar.commaSeparated p) := .seq hp <| .whileEating (hp.mono (Nat.le_succ k))

theorem Advances.itemsUntil {close : TokenKind} {item : Parse Unit}
    (hitem : Advances input k item) : Advances input k (Grammar.itemsUntil close item) :=
  .repeating (.bind .check fun _ => .cond .atEnd .done (.seq hitem .eat))

end Loops

/-! ## Recovery -/

/-- `closeGuard` moves nothing. -/
theorem forward_closeGuard (since : Nat) (hs : s.position ≤ input.symbols.size) :
    Forward input s (after (closeGuard since) input s) := by
  show Forward input s (after (if _ then _ else _) input s)
  split
  · exact ⟨Nat.le_refl _, hs, rfl⟩
  · exact .refl hs

/-- `guarded` goes forward, and passes a symbol if there is one left. -/
theorem guarded_progress {p : Parse Unit} (hp : Advances input k p) (hk : k ≤ s.position)
    (hs : s.position ≤ input.symbols.size) :
    Forward input s (after (guarded p) input s) ∧
      (s.position < input.symbols.size → s.position < (after (guarded p) input s).position) := by
  have hfirst := hp s hk hs
  rw [after_guarded]
  split
  · next hstuck =>
    -- nothing was passed, so a symbol is passed here
    rw [Bool.and_eq_true, beq_iff_eq, answer_atEnd, Bool.not_eq_true', Option.isNone_eq_false_iff,
      Option.isSome_iff_exists] at hstuck
    obtain ⟨hsame, kind, hseen⟩ := hstuck
    have hk' := hk.trans hfirst.position_le
    have hreport : Forward input _ (after (unexpected .statement) input (after p input s)) :=
      Advances.unexpected _ hk' hfirst.le_size
    obtain ⟨hbump, hlt⟩ := Passes.bump (K := anyLeaf) (after (unexpected .statement) input _) kind
      (hk'.trans hreport.position_le) hseen trivial
    have hclose := forward_closeGuard s.builder.marker hbump.le_size
    have hpast := hfirst.trans hreport
    exact ⟨hpast.trans (hbump.trans hclose), fun _ =>
      (hpast.position_le.trans_lt hlt).trans_le hclose.position_le⟩
  · next hmoved =>
    -- the parse moved, unless there was nothing left to pass
    have hclose := forward_closeGuard s.builder.marker hfirst.le_size
    refine ⟨hfirst.trans hclose, fun hlt => ?_⟩
    refine (Nat.lt_of_le_of_ne hfirst.position_le fun hsame => hmoved ?_).trans_le
      hclose.position_le
    obtain ⟨kind, hseen⟩ := exists_kind? (hsame ▸ hlt)
    simp [hsame, hseen]

theorem Advances.guarded {p : Parse Unit} (hp : Advances input k p) :
    Advances input k (Grammar.guarded p) := fun _ hk hs => (guarded_progress hp hk hs).1

theorem passes_guarded {p : Parse Unit} (hp : Advances input k p) :
    Passes input k anyLeaf (guarded p) := by
  intro s kind hk hseen _
  have hlt := lt_size_of_kind? hseen
  obtain ⟨hforward, hpassed⟩ := guarded_progress hp hk hlt.le
  exact ⟨hforward, hpassed hlt⟩

end Combinators

end CodeLayout.Grammar
