import CodeLayout.Proofs.Grammar.Progress

/-!
# Operators and their operands

Variables with infix operators between them can be grouped in many ways; a `Grouping` is one of
them.  In one that is `Bound`, an operator at the root of an operand binds more strongly than the
operator that takes the operand, or as strongly on the side from which equal operators are grouped.

There is exactly one bound grouping of a row of operators (`Grouping.eq_of_operators_eq`, and
`groups_expression` for the existence), and reading the row as an expression builds its tree.
-/

namespace CodeLayout.Grammar

open List

/-! ## Groupings -/

/-- Are equal operators of the kind grouped from the right? -/
def groupsRight (operator : TokenKind) : Bool :=
  operator == .coalesce || operator == .pow

/-- How strongly a token binds its operands; what stands between no operands binds nothing. -/
def strength (operator : TokenKind) : Nat :=
  ((Power.ofInfix? operator).map Power.level).getD 0

/-- The token takes an operand on each side, and has no third one. -/
def IsBinary (operator : TokenKind) : Prop :=
  (Power.ofInfix? operator).isSome = true ∧ operator ≠ .question

instance (operator : TokenKind) : Decidable (IsBinary operator) :=
  inferInstanceAs (Decidable (_ ∧ _))

/-- The node of an operator with two operands. -/
def binaryKind : TokenKind → NodeKind
  | .coalesce => .coalesceExpr
  | .instanceOfKw => .instanceofExpr
  | _ => .binaryExpr

/-- How strongly an operator at the root of the left operand must bind. -/
def leftLeast (operator : TokenKind) : Nat :=
  if groupsRight operator then strength operator + 1 else strength operator

/-- How strongly an operator at the root of the right operand must bind. -/
def rightLeast (operator : TokenKind) : Nat :=
  if groupsRight operator then strength operator else strength operator + 1

/-- A way to group operands with operators between them. -/
inductive Grouping where
  | operand
  | apply (left : Grouping) (operator : TokenKind) (right : Grouping)
deriving DecidableEq, Repr

namespace Grouping

/-- The operators from left to right. -/
def operators : Grouping → List TokenKind
  | operand => []
  | apply left operator right => left.operators ++ operator :: right.operators

/-- The number of operands and operators. -/
def size (g : Grouping) : Nat := 2 * g.operators.length + 1

theorem size_apply (left right : Grouping) (operator : TokenKind) :
    (apply left operator right).size = left.size + 1 + right.size := by
  simp only [size, operators, length_append, length_cons]
  omega

/-- The tree of a grouping whose first operand is the symbol at the position. -/
def tree : Grouping → Nat → Tree
  | operand, position => .leaf position 1
  | apply left operator right, position =>
    .branch (binaryKind operator)
      [left.tree position, .leaf (position + left.size) 1, right.tree (position + left.size + 1)]

/-- An operator at the root binds at least so strongly. -/
def AtLeast (least : Nat) : Grouping → Prop
  | operand => True
  | apply _ operator _ => least ≤ strength operator

/-- Every operator leaves to its operands what binds more strongly. -/
def Bound : Grouping → Prop
  | operand => True
  | apply left operator right => left.Bound ∧ right.Bound ∧
      left.AtLeast (leftLeast operator) ∧ right.AtLeast (rightLeast operator)

instance decidableAtLeast (least : Nat) : (g : Grouping) → Decidable (g.AtLeast least)
  | operand => inferInstanceAs (Decidable True)
  | apply _ operator _ => inferInstanceAs (Decidable (least ≤ strength operator))

instance decidableBound : (g : Grouping) → Decidable g.Bound
  | operand => inferInstanceAs (Decidable True)
  | apply left operator right =>
    have := decidableBound left
    have := decidableBound right
    inferInstanceAs (Decidable (left.Bound ∧ right.Bound ∧
      left.AtLeast (leftLeast operator) ∧ right.AtLeast (rightLeast operator)))

/-! ### Uniqueness -/

end Grouping

theorem strength_le_leftLeast (operator : TokenKind) : strength operator ≤ leftLeast operator := by
  unfold leftLeast
  split <;> omega

theorem strength_le_rightLeast (operator : TokenKind) :
    strength operator ≤ rightLeast operator := by
  unfold rightLeast
  split <;> omega

/-- Of two operators, the left one goes into an operand of the right one, or the right one into an
operand of the left one: tokens that bind equally strongly are grouped from the same side. -/
theorem leftLeast_le_iff {a b : TokenKind} :
    leftLeast b ≤ strength a ↔ strength b < rightLeast a := by
  have side (kind : TokenKind) :
      groupsRight kind = (strength kind == 6 || strength kind == 21) := by
    cases kind <;> rfl
  have hsame (h : strength a = strength b) : groupsRight a = groupsRight b := by
    rw [side, side, h]
  unfold leftLeast rightLeast
  by_cases h : strength a = strength b
  · rw [hsame h]
    split <;> omega
  · split <;> split <;> omega

namespace Grouping

variable {g : Grouping}

/-- In a grouping that is `Bound` the operator at the root binds least. -/
theorem Bound.atLeast_of_mem {n : Nat} (hbound : g.Bound) (hleast : g.AtLeast n) :
    ∀ operator ∈ g.operators, n ≤ strength operator := by
  induction g generalizing n with
  | operand => exact fun _ h => nomatch h
  | apply left operator right ihl ihr =>
    intro other hmem
    obtain ⟨hl, hr, hleft, hright⟩ := hbound
    rcases mem_append.mp hmem with hmem | hmem
    · exact hleast.trans ((strength_le_leftLeast operator).trans (ihl hl hleft other hmem))
    · rcases mem_cons.mp hmem with rfl | hmem
      · exact hleast
      · exact hleast.trans ((strength_le_rightLeast operator).trans (ihr hr hright other hmem))

/-- The operators on the left of a root cannot go on beyond another possible root. -/
theorem Bound.same_root {left right left' right' : Grouping} {operator operator' : TokenKind}
    {more : List TokenKind} (h : (apply left operator right).Bound)
    (h' : (apply left' operator' right').Bound) (hleft : left'.operators = left.operators ++ more)
    (hright : operator :: right.operators = more ++ operator' :: right'.operators) :
    left.operators = left'.operators ∧ operator = operator' ∧
      right.operators = right'.operators := by
  cases more with
  | nil =>
    obtain ⟨hroot, hops⟩ := List.cons.inj hright
    exact ⟨by rw [hleft, append_nil], hroot, hops⟩
  | cons first more =>
    -- each root would stand inside an operand of the other
    obtain ⟨rfl, hops⟩ := List.cons.inj hright
    have hinleft := h'.1.atLeast_of_mem h'.2.2.1 operator (by simp [hleft])
    have hinright := h.2.1.atLeast_of_mem h.2.2.2 operator' (by simp [hops])
    exact absurd (leftLeast_le_iff.mp hinleft) (Nat.not_lt.mpr hinright)

/-- Two groupings of the same operators that are `Bound` are the same. -/
theorem eq_of_operators_eq {g' : Grouping} (h : g.operators = g'.operators) (hg : g.Bound)
    (hg' : g'.Bound) : g = g' := by
  induction g generalizing g' with
  | operand =>
    cases g' with
    | operand => rfl
    | apply left' operator' right' => simp [operators] at h
  | apply left operator right ihl ihr =>
    cases g' with
    | operand => simp [operators] at h
    | apply left' operator' right' =>
      have hroot : left.operators = left'.operators ∧ operator = operator' ∧
          right.operators = right'.operators := by
        rcases append_eq_append_iff.mp h with ⟨more, hmore, hrest⟩ | ⟨more, hmore, hrest⟩
        · exact hg.same_root hg' hmore hrest
        · obtain ⟨hleft, heq, hright⟩ := hg'.same_root hg hmore hrest
          exact ⟨hleft.symm, heq.symm, hright.symm⟩
      obtain ⟨hleft, rfl, hright⟩ := hroot
      rw [ihl hleft hg.1 hg'.1, ihr hright hg.2.1 hg'.2.1]

end Grouping

/-! ## Rows of operands -/

/-- The signs that go on with an operand: for a call, an access, an index or a step. -/
def postfixSigns : List TokenKind :=
  [.parenBegin, .arrow, .nullsafeArrow, .doubleColon, .arrayBegin, .increment, .decrement]

/-- The signs that assign to an operand. -/
def assignSigns : List TokenKind := [.assign, .compoundAssign]

/-- The token goes on with an expression that could end in front of it. -/
def Continues (kind : TokenKind) : Prop :=
  (Power.ofInfix? kind).isSome = true ∨ kind ∈ postfixSigns ∨ kind ∈ assignSigns

instance (kind : TokenKind) : Decidable (Continues kind) :=
  inferInstanceAs (Decidable (_ ∨ _))

/-- From the position on there are the operators, each with a variable behind it, and then nothing
that goes on with the expression. -/
def OperatorsAt (input : Input) : Nat → List TokenKind → Prop
  | position, [] => ∀ kind ∈ input.kind? position, ¬ Continues kind
  | position, operator :: rest =>
    input.kind? position = some operator ∧ IsBinary operator ∧
      input.kind? (position + 1) = some .varName ∧ OperatorsAt input (position + 2) rest

instance decidableOperatorsAt (input : Input) :
    (position : Nat) → (operators : List TokenKind) → Decidable (OperatorsAt input position operators)
  | position, [] =>
    inferInstanceAs (Decidable (∀ kind ∈ input.kind? position, ¬ Continues kind))
  | position, operator :: rest =>
    have := decidableOperatorsAt input (position + 2) rest
    inferInstanceAs (Decidable (input.kind? position = some operator ∧ IsBinary operator ∧
      input.kind? (position + 1) = some .varName ∧ OperatorsAt input (position + 2) rest))

/-- From the position on there are variables with the operators between them, and then nothing that
goes on with the expression. -/
def OperandsAt (input : Input) (position : Nat) (operators : List TokenKind) : Prop :=
  input.kind? position = some .varName ∧ OperatorsAt input (position + 1) operators

instance (input : Input) (position : Nat) (operators : List TokenKind) :
    Decidable (OperandsAt input position operators) :=
  inferInstanceAs (Decidable (_ ∧ _))

/-- The state with the tree of a grouping added and its symbols passed. -/
def State.grown (s : State) (g : Grouping) : State :=
  { s with
    position := s.position + g.size
    builder := ⟨Tree.Builder.attach s.builder.frames (g.tree s.position),
      s.builder.made + (g.size + g.operators.length)⟩ }

section Rows

variable {input : Input} {s : State} {call : Rules}

variable {position least : Nat} {rest operators : List TokenKind} {operator kind : TokenKind}

theorem OperatorsAt.drop {front : List TokenKind} (h : OperatorsAt input position (front ++ rest)) :
    OperatorsAt input (position + 2 * front.length) rest := by
  induction front generalizing position with
  | nil => exact h
  | cons operator front ih =>
    have := ih h.2.2.2
    rwa [show position + 2 + 2 * front.length = position + 2 * (front.length + 1) by omega]
      at this

/-- What `OperatorsAt` has are symbols of the row. -/
theorem OperatorsAt.length_le (h : OperatorsAt input position operators) :
    2 * operators.length ≤ input.symbols.size - position := by
  induction operators generalizing position with
  | nil => exact Nat.zero_le _
  | cons operator rest ih =>
    have hlast := lt_size_of_kind? h.2.2.1
    have hrest := ih h.2.2.2
    rw [length_cons]
    omega

/-- What `IsBinary` neither goes on with its left operand nor assigns to it. -/
theorem IsBinary.not_mem (h : IsBinary operator) :
    operator ∉ postfixSigns ∧ operator ∉ assignSigns := by
  have hnone : ∀ kind ∈ postfixSigns ++ assignSigns, Power.ofInfix? kind = none := by decide
  have hmem : operator ∉ postfixSigns ++ assignSigns := fun hmem => by
    have hsome := h.1
    rw [hnone operator hmem] at hsome
    cases hsome
  exact ⟨fun hin => hmem (mem_append_left _ hin),
    fun hin => hmem (mem_append_right _ hin)⟩

/-- Behind an operand of `OperatorsAt` there is neither more of it nor an assignment. -/
theorem OperatorsAt.ends (h : OperatorsAt input position operators)
    (hseen : input.kind? position = some kind) : kind ∉ postfixSigns ∧ kind ∉ assignSigns := by
  cases operators with
  | nil =>
    have hends := h kind hseen
    exact ⟨fun hmem => hends (.inr (.inl hmem)), fun hmem => hends (.inr (.inr hmem))⟩
  | cons operator rest =>
    obtain rfl : kind = operator := Option.some.inj (hseen.symm.trans h.1)
    exact h.2.1.not_mem

/-! ## Reading an operand -/

theorem after_bump_grown (hseen : input.kind? s.position = some kind) :
    after bump input s = s.grown .operand := (after_bump_seen hseen).trans rfl

theorem after_primary_variable (hseen : input.kind? s.position = some .varName) :
    after (primary call) input s = s.grown .operand := by
  rw [primary, after_bind, answer_peek, hseen]
  exact after_bump_grown hseen

theorem postfixStep_ends (call : Rules) (since : Nat)
    (hends : ∀ kind, input.kind? s.position = some kind → kind ∉ postfixSigns) :
    answer (postfixStep call since) input s = false ∧
      after (postfixStep call since) input s = s := by
  rw [postfixStep, answer_bind, after_bind, answer_peek]
  cases hseen : input.kind? s.position with
  | none => exact ⟨rfl, rfl⟩
  | some kind =>
    have := hends kind hseen
    simp only [postfixSigns, mem_cons, not_mem_nil, or_false, not_or] at this
    split <;> simp_all
    exact ⟨rfl, rfl⟩

/-- `unary` reads a variable that nothing goes on with. -/
theorem after_unary_variable (hprimary : after (call .primary) input s = s.grown .operand)
    (hseen : input.kind? s.position = some .varName)
    (hrest : OperatorsAt input (s.position + 1) operators) :
    after (unary call) input s = s.grown .operand := by
  have hoperand : after (operand call) input s = s.grown .operand := by
    show after (repeatUpTo (postfixStep call _) (input.symbols.size + 1)) input
      (after (call .primary) input s) = _
    rw [hprimary]
    obtain ⟨hstop, hsame⟩ := postfixStep_ends (s := s.grown .operand) call s.builder.marker
      fun kind hkind => (hrest.ends hkind).1
    rw [after_repeatUpTo_succ, hstop, if_neg Bool.false_ne_true, hsame]
    rfl
  have hassign : answer (checkAny assignSigns) input (s.grown .operand) = false := by
    rw [checkAny, answer_bind, answer_peek]
    cases hkind : input.kind? (s.grown .operand).position with
    | none => rfl
    | some kind =>
      show assignSigns.contains kind = false
      simpa using (hrest.ends hkind).2
  rw [unary, after_bind, answer_peek, hseen]
  show after (if answer (checkAny assignSigns) input (after (operand call) input s) = true then _
    else _) input (after (operand call) input s) = _
  rw [hoperand, hassign, if_neg Bool.false_ne_true]
  rfl

/-! ## Folding operators -/

/-- What an operator with two operands does once it is seen. -/
theorem IsBinary.reads (h : IsBinary operator) (call : Rules) :
    ∃ power, Power.ofInfix? operator = some power ∧ power.level = strength operator ∧
      infixKind power = binaryKind operator ∧
      infixRest call power = bump >>= fun _ => call (.expression (rightLeast operator)) := by
  obtain ⟨hsome, hbinary⟩ := h
  -- the operators, the one with three operands, and all other tokens
  cases operator <;>
    first
      | exact ⟨_, rfl, rfl, rfl, rfl⟩
      | exact absurd rfl hbinary
      | exact absurd hsome Bool.false_ne_true

/-- `startAt` in front of the last child takes over that child. -/
theorem startAt_attach {frames : List Tree.Frame} (hframes : frames ≠ []) (t : Tree)
    (kind : NodeKind) (made made' : Nat) :
    Tree.Builder.startAt ⟨Tree.Builder.attach frames t, made⟩
        (Tree.Builder.marker ⟨frames, made'⟩) kind = ⟨⟨kind, #[t]⟩ :: frames, made⟩ := by
  cases frames with
  | nil => exact absurd rfl hframes
  | cons top around =>
    have hlast : (top.children.push t).extract top.children.size (top.children.size + 1) =
        #[t] := by
      apply Array.ext'
      simp
    simp [Tree.Builder.attach, Tree.Builder.startAt, Tree.Builder.marker, hlast]

/-- `infixStep` at an operator that binds strongly enough takes the grouping read so far as its left
operand. -/
theorem infixStep_applies {g right : Grouping} (hframes : s.builder.frames ≠ [])
    (hbinary : IsBinary operator) (hseen : input.kind? (s.position + g.size) = some operator)
    (hleast : least ≤ strength operator)
    (hright : ∀ s' : State, s'.builder.frames ≠ [] → s'.position = s.position + g.size + 1 →
      after (call (.expression (rightLeast operator))) input s' = s'.grown right) :
    answer (infixStep call s.builder.marker least) input (s.grown g) = true ∧
      after (infixStep call s.builder.marker least) input (s.grown g) =
        s.grown (.apply g operator right) := by
  obtain ⟨power, hpower, hlevel, hkind, hreads⟩ := hbinary.reads call
  have hpeek : (answer peek input (s.grown g)).bind Power.ofInfix? = some power := by
    rw [answer_peek]
    show (input.kind? (s.position + g.size)).bind Power.ofInfix? = some power
    rw [hseen]
    exact hpower
  have hlook : ¬ power.level < least := by omega
  rw [infixStep, answer_bind, after_bind, hpeek]
  simp only [if_neg hlook]
  refine ⟨rfl, ?_⟩
  show after (wrap s.builder.marker (infixKind power) (infixRest call power)) input (s.grown g) = _
  have hstart : (s.grown g).builder.startAt s.builder.marker (infixKind power) =
      ⟨⟨binaryKind operator, #[g.tree s.position]⟩ :: s.builder.frames, (s.grown g).builder.made⟩ :=
    hkind ▸ startAt_attach hframes _ _ _ _
  have hwrap (p : Parse Unit) : after (wrap s.builder.marker (infixKind power) p) input (s.grown g) =
      (fun s' : State => { s' with builder := s'.builder.finish.1 }) (after p input { s.grown g with
        builder := (s.grown g).builder.startAt s.builder.marker (infixKind power) }) := rfl
  rw [hwrap, hstart, hreads, after_bind, after_bump_grown hseen,
    hright _ (by simp [State.grown, Tree.Builder.attach]) rfl]
  have hone : Grouping.operand.size = 1 := rfl
  simp [State.grown, Tree.Builder.attach, Tree.Builder.finish, Grouping.tree, Grouping.operators,
    Grouping.size_apply, hone]
  omega

/-- `infixStep` ends where no infix operator is there, or it binds too little. -/
theorem infixStep_ends (call : Rules) (since : Nat)
    (hends : ∀ power, (input.kind? s.position).bind Power.ofInfix? = some power →
      power.level < least) :
    answer (infixStep call since least) input s = false ∧
      after (infixStep call since least) input s = s := by
  rw [infixStep, answer_bind, after_bind, answer_peek]
  cases hpower : (input.kind? s.position).bind Power.ofInfix? with
  | none => exact ⟨rfl, rfl⟩
  | some power =>
    simp only [if_pos (hends power hpower)]
    exact ⟨rfl, rfl⟩

theorem OperatorsAt.stops (h : OperatorsAt input position rest)
    (hless : ∀ next ∈ rest.head?, strength next < least) {power : Power}
    (hseen : (input.kind? position).bind Power.ofInfix? = some power) :
    power.level < least := by
  obtain ⟨kind, hkind, hpower⟩ := Option.bind_eq_some_iff.mp hseen
  cases rest with
  | nil => exact absurd (.inl (by rw [hpower]; rfl)) (h kind hkind)
  | cons operator rest =>
    obtain rfl : kind = operator := Option.some.inj (hkind.symm.trans h.1)
    have := hless kind rfl
    rwa [strength, hpower] at this

/-- From the position on, the parse adds a bound grouping of the operators up to one that binds less
than is required. -/
def GroupsUpTo (input : Input) (least : Nat) (p : Parse Unit) (position : Nat)
    (operators : List TokenKind) : Prop :=
  ∃ (g : Grouping) (rest : List TokenKind), operators = g.operators ++ rest ∧ g.Bound ∧
    g.AtLeast least ∧ (∀ next ∈ rest.head?, strength next < least) ∧
    ∀ s : State, s.builder.frames ≠ [] → s.position = position → after p input s = s.grown g

/-- The loop over `infixStep` extends a grouping that the next operator can take as its left
operand. -/
theorem groups_infix (least : Nat) {limit : Nat}
    (hcall : ∀ least position operators, operators.length < limit →
      OperandsAt input position operators →
      GroupsUpTo input least (call (.expression least)) position operators) (n : Nat) (g : Grouping)
    (rest : List TokenKind) (hn : rest.length < n) (hlimit : rest.length ≤ limit)
    (hrest : OperatorsAt input (position + g.size) rest) (hbound : g.Bound)
    (hleast : g.AtLeast least) (hnext : ∀ next ∈ rest.head?, g.AtLeast (leftLeast next)) :
    ∃ (g' : Grouping) (rest' : List TokenKind), g.operators ++ rest = g'.operators ++ rest' ∧
      g'.Bound ∧ g'.AtLeast least ∧ (∀ next ∈ rest'.head?, strength next < least) ∧
      ∀ s : State, s.builder.frames ≠ [] → s.position = position →
        after (repeatUpTo (infixStep call s.builder.marker least) n) input (s.grown g) =
          s.grown g' := by
  induction n generalizing g rest with
  | zero => omega
  | succ n ih =>
    by_cases hstop : ∀ next ∈ rest.head?, strength next < least
    · refine ⟨g, rest, rfl, hbound, hleast, hstop, fun s hframes hs => ?_⟩
      subst hs
      obtain ⟨hanswer, hafter⟩ := infixStep_ends (s := s.grown g) call s.builder.marker
        fun power hpower => hrest.stops hstop hpower
      rw [after_repeatUpTo_succ, hanswer, if_neg Bool.false_ne_true, hafter]
      rfl
    · cases rest with
      | nil => exact absurd (fun _ h => nomatch h) hstop
      | cons operator rest =>
        obtain ⟨hseen, hbinary, hvariable, htail⟩ := hrest
        have hstrong : least ≤ strength operator := by
          simpa using hstop
        have hlength : rest.length < limit := hlimit
        obtain ⟨right, left, rfl, hright, hrightLeast, hless, hafter⟩ :=
          hcall (rightLeast operator) (position + g.size + 1) rest hlength ⟨hvariable, htail⟩
        have hsize : position + (Grouping.apply g operator right).size =
            position + g.size + 2 + 2 * right.operators.length := by
          rw [Grouping.size_apply, Grouping.size, Grouping.size]
          omega
        have hmore :
            OperatorsAt input (position + (Grouping.apply g operator right).size) left :=
          hsize ▸ htail.drop
        simp only [length_cons, length_append] at hn hlimit
        obtain ⟨g', rest', hsplit, hg', hleast', hstop', hloop⟩ :=
          ih (.apply g operator right) left (by omega) (by omega) hmore
            ⟨hbound, hright, hnext operator rfl, hrightLeast⟩ hstrong
            fun next hmem => leftLeast_le_iff.mpr (hless next hmem)
        refine ⟨g', rest', ?_, hg', hleast', hstop', fun s hframes hs => ?_⟩
        · rw [← hsplit]
          simp [Grouping.operators]
        · subst hs
          obtain ⟨hanswer, happly⟩ := infixStep_applies hframes hbinary hseen hstrong hafter
          rw [after_repeatUpTo_succ, hanswer, if_pos rfl, happly]
          exact hloop s hframes rfl

/-- A row of operands, read as an expression, is grouped up to an operator that binds less than is
required. -/
theorem groups_expression (depth least position : Nat) (operators : List TokenKind)
    (hdepth : operators.length + 3 ≤ depth) (hrow : OperandsAt input position operators) :
    GroupsUpTo input least (Rule.run depth (.expression least)) position operators := by
  induction depth generalizing least position operators with
  | zero => omega
  | succ depth ih =>
    obtain ⟨hseen, hrest⟩ := hrow
    obtain ⟨d, rfl⟩ : ∃ d, depth = d + 2 := ⟨depth - 2, by omega⟩
    have hlength := hrest.length_le
    obtain ⟨g, rest, hsplit, hbound, hleast, hstop, hloop⟩ :=
      groups_infix least
        (fun least position operators' (hshort : operators'.length < operators.length) hrow =>
          ih least position operators' (by omega) hrow)
        (input.symbols.size + 1) .operand operators (by omega) (Nat.le_refl _) hrest trivial
        trivial fun _ _ => trivial
    refine ⟨g, rest, hsplit, hbound, hleast, hstop, fun s hframes hs => ?_⟩
    subst hs
    have hunary : after (Rule.run (d + 2) .unary) input s = s.grown .operand :=
      after_unary_variable (after_primary_variable hseen) hseen hrest
    show after (repeatUpTo (infixStep (Rule.run (d + 2)) s.builder.marker least)
      (input.symbols.size + 1)) input (after (Rule.run (d + 2) .unary) input s) = _
    rw [hunary]
    exact hloop s hframes rfl

end Rows

/-- The `strength` of every operator is positive. -/
theorem IsBinary.strength_pos {operator : TokenKind} (h : IsBinary operator) :
    0 < strength operator := by
  obtain ⟨power, hpower⟩ := Option.isSome_iff_exists.mp h.1
  rw [strength, hpower]
  cases power <;> decide

/-- **Variables with operators between them are grouped by how strongly the operators bind.**  There
is exactly one bound grouping of the operators, and an expression read from the first variable on
passes the whole row, adds the tree of that grouping and changes nothing else: it reports no
problem.  Each operator inside of another's right operand takes one more call. -/
theorem expr_groups {input : Input} {s : State} {depth : Nat} {operators : List TokenKind}
    (hrow : OperandsAt input s.position operators) (hframes : s.builder.frames ≠ [])
    (hdepth : operators.length + 3 ≤ depth) :
    ∃ g : Grouping, (∀ g' : Grouping, g'.operators = operators ∧ g'.Bound ↔ g' = g) ∧
      after (Rules.expr (Rule.run depth)) input s =
        { s with
          position := s.position + (2 * operators.length + 1)
          builder := ⟨Tree.Builder.attach s.builder.frames (g.tree s.position),
            s.builder.made + (3 * operators.length + 1)⟩ } := by
  obtain ⟨g, rest, hsplit, hbound, -, hstop, hafter⟩ :=
    groups_expression depth Power.or.level s.position operators hdepth hrow
  have hnil : rest = [] := by
    cases rest with
    | nil => rfl
    | cons next rest =>
        -- no operator binds less than what every expression takes
        have hbinary : IsBinary next := (hsplit ▸ hrow.2).drop.2.1
        have hless : strength next < 1 := hstop next rfl
        have := hbinary.strength_pos
        omega
  subst hnil
  rw [List.append_nil] at hsplit
  subst hsplit
  refine ⟨g, fun g' => ⟨fun h => Grouping.eq_of_operators_eq h.1 h.2 hbound, ?_⟩, ?_⟩
  · rintro rfl
    exact ⟨rfl, hbound⟩
  · rw [Rules.expr, Rules.atLeast, hafter s hframes rfl, State.grown, Grouping.size,
      show 2 * g.operators.length + 1 + g.operators.length = 3 * g.operators.length + 1 by omega]

/-- `$a + $b ** $c ** $d ?? $e . $f;` is `($a + ($b ** ($c ** $d))) ?? ($e . $f)`. -/
theorem expr_groups_mixed :
    let row : Input := ⟨#[⟨.varName, false⟩, ⟨.plus, false⟩, ⟨.varName, false⟩, ⟨.pow, false⟩,
      ⟨.varName, false⟩, ⟨.pow, false⟩, ⟨.varName, false⟩, ⟨.coalesce, false⟩, ⟨.varName, false⟩,
      ⟨.dot, false⟩, ⟨.varName, false⟩, ⟨.semiColon, false⟩], false⟩
    let start : State := { builder := Tree.Builder.start {} .exprStmt }
    let grouping : Grouping := .apply
      (.apply .operand .plus (.apply .operand .pow (.apply .operand .pow .operand)))
      .coalesce (.apply .operand .dot .operand)
    OperandsAt row 0 [.plus, .pow, .pow, .coalesce, .dot] ∧
      after (Rules.expr (Rule.run (depthBound row))) row start =
        { start with position := 11, builder := ⟨[⟨.exprStmt, #[grouping.tree 0]⟩], 16⟩ } := by
  intro row start grouping
  have hrow : OperandsAt row 0 [.plus, .pow, .pow, .coalesce, .dot] := by decide
  have hdepth : 5 + 3 ≤ depthBound row := by decide
  obtain ⟨g, hunique, hafter⟩ := expr_groups (s := start) hrow (by decide) hdepth
  have hg : grouping = g := (hunique grouping).mp ⟨rfl, by decide⟩
  refine ⟨hrow, ?_⟩
  rw [hafter, hg]
  rfl

end CodeLayout.Grammar
