import CodeLayout.Grammar.Program
import CodeLayout.Proofs.Tree.Leaves

/-!
# What a parse adds to the tree

A parse passes symbols and adds them, in order and inside nodes of its own, to the innermost open
node; it never touches what was there before.  `Added input h start new s` says so of a state: since
the innermost open node looked like the hole `h`, at the position `start`, exactly the trees `new`
were added to it, and their leaves are the positions passed since then.  The problems reported
meanwhile are kept, and those that count as wrapped are `Marked` by an error node among the trees.
-/

namespace CodeLayout

open List
open CodeLayout.Tree (leavesAll leavesAll_append leavesAll_cons leavesAll_nil leaves_branch)

namespace Grammar

/-! ## Running a parse -/

/-- The answer of a parse. -/
def answer {α : Type} (p : Parse α) (input : Input) (s : State) : α := ((p.run input).run s).1

/-- The state after a parse. -/
def after {α : Type} (p : Parse α) (input : Input) (s : State) : State := ((p.run input).run s).2

section Run

variable {α β : Type} (input : Input) (s : State)

@[simp] theorem after_pure (a : α) : after (pure a) input s = s := rfl

theorem after_bind (p : Parse α) (f : α → Parse β) :
    after (p >>= f) input s = after (f (answer p input s)) input (after p input s) := rfl

theorem answer_bind (p : Parse α) (f : α → Parse β) :
    answer (p >>= f) input s = answer (f (answer p input s)) input (after p input s) := rfl

end Run

/-! ## Kinds and order of leaves -/

/-- The kind of the symbol at a position. -/
def Input.kind? (input : Input) (position : Nat) : Option TokenKind :=
  input.symbols[position]?.map Symbol.kind

variable {input : Input} {n : Nat}

/-- There are answers of `kind?` only within the input. -/
theorem lt_size_of_kind? {kind : TokenKind} (h : input.kind? n = some kind) :
    n < input.symbols.size := by
  obtain ⟨_, hsymbol, -⟩ := Option.map_eq_some_iff.mp h
  exact (Array.getElem?_eq_some_iff.mp hsymbol).1

theorem exists_kind? (h : n < input.symbols.size) : ∃ kind, input.kind? n = some kind := by
  rw [Input.kind?, Array.getElem?_eq_getElem h]
  exact ⟨_, rfl⟩

end Grammar

namespace Tree

/-- The tree is a leaf of the kind. -/
def IsSign (kindOf : Nat → Option TokenKind) (kind : TokenKind) : Tree → Prop
  | leaf i _ => kindOf i = some kind
  | node .. => False

/-- A leaf `IsSign` of one kind. -/
theorem IsSign.unique {kindOf : Nat → Option TokenKind} {kind kind' : TokenKind} {t : Tree}
    (h : t.IsSign kindOf kind) (h' : t.IsSign kindOf kind') : kind = kind' := by
  cases t with
  | leaf i w => exact Option.some.inj (h.symm.trans h')
  | node k w cs => exact h.elim

/-- No child that is a closing sign stands before one that is an opening sign. -/
def Paired (kindOf : Nat → Option TokenKind) (opening closing : TokenKind) (cs : List Tree) : Prop :=
  cs.Pairwise fun a b => ¬ (IsSign kindOf closing a ∧ IsSign kindOf opening b)

/-- The children of a node with braces or parentheses of its own hold them in order. -/
def Orderly (kindOf : Nat → Option TokenKind) (kind : NodeKind) (cs : List Tree) : Prop :=
  match kind with
  | .block | .classBody => Paired kindOf .blockBegin .blockEnd cs
  | .forStmt => Paired kindOf .parenBegin .parenEnd cs
  | _ => True

/-- The first of the trees is a leaf, and not the tag that prints. -/
def Led (kindOf : Nat → Option TokenKind) (cs : List Tree) : Prop :=
  ∃ t rest kind, cs = t :: rest ∧ t.IsSign kindOf kind ∧ kind ≠ .openTagWithEcho

/-- The first of the trees has a leaf, or it is as `P` says. -/
def Headed (P : Tree → Prop) (cs : List Tree) : Prop := ∀ t, cs.head? = some t → t.leaves ≠ [] ∨ P t

/-- What holds of the children of a node outside of error nodes, whatever problems the source has: a
construct starts with its word or sign, and where its layout looks for a sign, there is no tag. -/
def Formed (kindOf : Nat → Option TokenKind) (kind : NodeKind) (cs : List Tree) : Prop :=
  match kind with
  | .attributeGroup | .elseIfClause | .elseClause | .whileStmt | .foreachStmt | .switchStmt
  | .caseClause | .catchClause | .finallyClause | .emptyStmt | .closureUse
  | .groupUseList => Led kindOf cs
  | .ifStmt => Led kindOf cs ∧ ∀ front t behind, cs = front ++ t :: behind →
      t.IsSign kindOf .parenEnd → ∀ u ∈ behind.drop 1,
        u.isKind .elseIfClause = true ∨ u.isKind .elseClause = true
  | .switchBody => ∀ t ∈ cs, t.isNode = true → t.isKind .caseClause = true
  | .binaryExpr | .instanceofExpr | .coalesceExpr => ∀ t, cs[1]? = some t →
      ¬ t.IsSign kindOf .openTagWithEcho
  | .postfixExpr => ∀ t, cs.getLast? = some t → ¬ t.IsSign kindOf .openTagWithEcho
  | .param => Headed (fun _ => False) cs
  | .propertyDecl | .classConstDecl => Headed (fun t => t.isKind .propertyElement = true) cs
  | .program => ∀ t ∈ cs, t.isNode = true ∧ t.leaves ≠ []
  | _ => True

end Tree

open CodeLayout.Tree (Formed Orderly Led Headed sound_branch)

namespace Grammar

/-- The trees are nodes, or leaves of kinds in the set. -/
def Bare (input : Input) (A : TokenKind → Prop) (ts : List Tree) : Prop :=
  ∀ t ∈ ts, t.isNode = true ∨ ∃ kind, t.IsSign input.kind? kind ∧ A kind

/-- The trees are nodes, or leaves of kinds in the set, and well formed outside of error nodes. -/
structure Neat (input : Input) (A : TokenKind → Prop) (ts : List Tree) : Prop where
  bare : Bare input A ts
  sound : ∀ t ∈ ts, t.Sound (Formed input.kind?)

/-! ## Problems and the nodes that mark them -/

/-- An error node among the trees, whose leaves are the positions from `start` on, reaches up to the
position or beyond it. -/
def Marked (start : Nat) (ts : List Tree) (position : Nat) : Prop :=
  ∃ (us : List Tree) (t : Tree) (vs : List Tree) (n : Tree) (before behind : List Nat),
    ts = us ++ t :: vs ∧ n.Inside t before behind ∧ n.isKind .error = true ∧
      position ≤ start + (leavesAll us ++ before ++ n.leaves).length

namespace Marked

variable {start position : Nat} {ts us : List Tree}

theorem append_left (h : Marked start ts position) : Marked start (ts ++ us) position := by
  obtain ⟨as, t, bs, n, before, behind, rfl, hrest⟩ := h
  exact ⟨as, t, bs ++ us, n, before, behind, by simp, hrest⟩

theorem append_right (h : Marked (start + (leavesAll ts).length) us position) :
    Marked start (ts ++ us) position := by
  obtain ⟨as, t, bs, n, before, behind, rfl, hinside, hkind, hle⟩ := h
  refine ⟨ts ++ as, t, bs, n, before, behind, by simp, hinside, hkind, ?_⟩
  simp only [leavesAll_append, length_append] at hle ⊢
  omega

theorem branch {kind : NodeKind} (h : Marked start ts position) :
    Marked start [.branch kind ts] position := by
  obtain ⟨as, t, bs, n, before, behind, rfl, hinside, hkind, hle⟩ := h
  exact ⟨[], _, [], n, _, _, rfl, .child hinside, hkind, hle⟩

/-- An error node (`NodeKind.error`) marks all that is known at its end. -/
theorem error (h : position ≤ start + (leavesAll ts).length) :
    Marked start [.branch .error ts] position :=
  ⟨[], _, [], .branch .error ts, [], [], rfl, .here, rfl, by simpa using h⟩

end Marked

/-! ## States -/

/-- An innermost open node, with the children that it has and the nodes around it, and the problems
known by then, with the number of those that are wrapped. -/
structure Hole where
  kind : NodeKind
  children : Array Tree
  around : List Tree.Frame
  problems : Array Problem
  wrapped : Nat

/-- What became of the problems since the hole, while the trees were added. -/
structure Noted (h : Hole) (start : Nat) (new : List Tree) (s : State) : Prop where
  kept : ∀ (j : Nat) p, h.problems[j]? = some p → s.problems[j]? = some p
  fresh : ∀ (j : Nat) p, h.problems.size ≤ j → s.problems[j]? = some p → start ≤ p.position
  reached : ∀ (j : Nat) p, s.problems[j]? = some p → p.position ≤ s.position
  ordered : ∀ (i j : Nat) p q, h.problems.size ≤ i → i ≤ j → s.problems[i]? = some p →
    s.problems[j]? = some q → p.position ≤ q.position
  wrapped_le : s.wrapped ≤ s.problems.size
  marked : ∀ (j : Nat) p, h.wrapped ≤ j → j < s.wrapped → s.problems[j]? = some p →
    Marked start new p.position

/-- Since the innermost open node was the hole, at the position, the trees were added to it. -/
structure Added (input : Input) (h : Hole) (start : Nat) (new : List Tree) (s : State) : Prop where
  frames : s.builder.frames = ⟨h.kind, h.children ++ new.toArray⟩ :: h.around
  start_le : start ≤ s.position
  le_size : s.position ≤ input.symbols.size
  leaves : leavesAll new = List.range' start (s.position - start)
  orderly : ∀ t ∈ new, t.Every (Orderly input.kind?)
  noted : Noted h start new s

namespace Noted

variable {h : Hole} {start : Nat} {new more : List Tree} {s s' : State}

variable {kind : NodeKind} {children : Array Tree} {around : List Tree.Frame}

section

variable (hn : Noted h start new s)
include hn

/-- `Noted` with any trees, as long as no problem is reported or wrapped. -/
theorem unchanged (hpos : s.position ≤ s'.position)
    (hproblems : s'.problems = s.problems) (hwrapped : s'.wrapped = s.wrapped) :
    Noted ⟨kind, children, around, s.problems, s.wrapped⟩ s.position more s' where
  kept j p hp := hproblems ▸ hp
  fresh j p hj hp := by
    rw [hproblems, Array.getElem?_eq_none hj] at hp
    cases hp
  reached j p hp := Nat.le_trans (hn.reached j p (hproblems ▸ hp)) hpos
  ordered i j p q hi _ hp _ := by
    rw [hproblems, Array.getElem?_eq_none hi] at hp
    cases hp
  wrapped_le := by rw [hproblems, hwrapped]; exact hn.wrapped_le
  marked j p hj hlt _ := absurd hlt (by rw [hwrapped]; exact Nat.not_lt.mpr hj)

theorem congr (hpos : s'.position = s.position)
    (hproblems : s'.problems = s.problems) (hwrapped : s'.wrapped = s.wrapped) :
    Noted h start new s' := by
  constructor
  · rw [hproblems]; exact hn.kept
  · rw [hproblems]; exact hn.fresh
  · rw [hproblems, hpos]; exact hn.reached
  · rw [hproblems]; exact hn.ordered
  · rw [hproblems, hwrapped]; exact hn.wrapped_le
  · rw [hproblems, hwrapped]; exact hn.marked

theorem trans (hstart : start ≤ s.position)
    (hleaves : start + (leavesAll new).length = s.position)
    (hmore : Noted ⟨kind, children, around, s.problems, s.wrapped⟩ s.position more s') :
    Noted h start (new ++ more) s' where
  kept j p hp := hmore.kept j p (hn.kept j p hp)
  fresh j p hj hp := by
    by_cases hlt : j < s.problems.size
    · -- reported up to the marker, and kept since
      have hp' := hmore.kept j _ (Array.getElem?_eq_getElem hlt)
      rw [hp'] at hp
      cases hp
      exact hn.fresh j _ hj (Array.getElem?_eq_getElem hlt)
    · exact Nat.le_trans hstart (hmore.fresh j p (Nat.le_of_not_lt hlt) hp)
  reached := hmore.reached
  ordered i j p q hi hij hp hq := by
    by_cases hlt : i < s.problems.size
    · have hp' := hmore.kept i _ (Array.getElem?_eq_getElem hlt)
      rw [hp'] at hp
      cases hp
      by_cases hlt' : j < s.problems.size
      · have hq' := hmore.kept j _ (Array.getElem?_eq_getElem hlt')
        rw [hq'] at hq
        cases hq
        exact hn.ordered i j _ _ hi hij (Array.getElem?_eq_getElem hlt)
          (Array.getElem?_eq_getElem hlt')
      · -- the marker lies between the two problems
        exact Nat.le_trans (hn.reached i _ (Array.getElem?_eq_getElem hlt))
          (hmore.fresh j q (Nat.le_of_not_lt hlt') hq)
    · exact hmore.ordered i j p q (Nat.le_of_not_lt hlt) hij hp hq
  wrapped_le := hmore.wrapped_le
  marked j p hj hlt hp := by
    by_cases hlt' : j < s.wrapped
    · -- the problem was wrapped before, and is still the same
      have hsize : j < s.problems.size := Nat.lt_of_lt_of_le hlt' hn.wrapped_le
      have hp' := hmore.kept j _ (Array.getElem?_eq_getElem hsize)
      rw [hp'] at hp
      cases hp
      exact (hn.marked j _ hj hlt' (Array.getElem?_eq_getElem hsize)).append_left
    · -- wrapped since the marker, by a node that counts from there
      have hmarked := hmore.marked j p (Nat.le_of_not_lt hlt') hlt hp
      rw [← hleaves] at hmarked
      exact hmarked.append_right

theorem report (hstart : start ≤ s.position) (cause : Cause) :
    Noted h start new { s with problems := s.problems.push ⟨s.position, cause⟩ } where
  kept j p hp := by
    have hp' := hn.kept j p hp
    have hlt := (Array.getElem?_eq_some_iff.mp hp').1
    rw [Array.getElem?_push_lt hlt, ← Array.getElem?_eq_getElem hlt]
    exact hp'
  fresh j p hj hp := by
    rw [Array.getElem?_push] at hp
    split at hp
    · cases hp
      exact hstart
    · exact hn.fresh j p hj hp
  reached j p hp := by
    rw [Array.getElem?_push] at hp
    split at hp
    · cases hp
      exact Nat.le_refl _
    · exact hn.reached j p hp
  ordered i j p q hi hij hp hq := by
    rw [Array.getElem?_push] at hp hq
    split at hq
    · -- the new problem stands where the parse has got to
      cases hq
      split at hp
      · cases hp
        exact Nat.le_refl _
      · exact hn.reached i p hp
    · next hj =>
      have hlt := (Array.getElem?_eq_some_iff.mp hq).1
      rw [if_neg (by omega)] at hp
      exact hn.ordered i j p q hi hij hp hq
  wrapped_le := by
    rw [Array.size_push]
    exact Nat.le_succ_of_le hn.wrapped_le
  marked j p hj hlt hp := by
    have hsize : j < s.problems.size := Nat.lt_of_lt_of_le hlt hn.wrapped_le
    rw [Array.getElem?_push_lt hsize, ← Array.getElem?_eq_getElem hsize] at hp
    exact hn.marked j p hj hlt hp

end

/-- `Noted` with trees that become one node: they mark the same problems. -/
theorem branch {kind' : NodeKind}
    (hn : Noted ⟨kind', children, around, h.problems, h.wrapped⟩ start new s) :
    Noted h start [.branch kind new] s where
  kept := hn.kept
  fresh := hn.fresh
  reached := hn.reached
  ordered := hn.ordered
  wrapped_le := hn.wrapped_le
  marked j p hj hlt hp := (hn.marked j p hj hlt hp).branch

/-- An error node marks all problems known at its end. -/
theorem error (hn : Noted h start [.branch .error new] s)
    (hleaves : start + (leavesAll new).length = s.position) :
    Noted h start [.branch .error new] { s with wrapped := s.problems.size } where
  kept := hn.kept
  fresh := hn.fresh
  reached := hn.reached
  ordered := hn.ordered
  wrapped_le := Nat.le_refl _
  marked j p _ _ hp := .error (hleaves ▸ hn.reached j p hp)

end Noted

namespace Added

variable {input : Input} {h : Hole} {start : Nat} {new more : List Tree} {s s' : State}

section

variable (hadd : Added input h start new s)
include hadd

/-- Nothing was `Added` yet at the place where a marker is set. -/
theorem here :
    Added input ⟨h.kind, h.children ++ new.toArray, h.around, s.problems, s.wrapped⟩
      s.position [] s where
  frames := by simpa using hadd.frames
  start_le := Nat.le_refl _
  le_size := hadd.le_size
  leaves := by simp
  orderly := by simp
  noted := hadd.noted.unchanged (Nat.le_refl _) rfl rfl

theorem wrapped_le : s.wrapped ≤ s.problems.size :=
  hadd.noted.wrapped_le

theorem length_leaves : start + (leavesAll new).length = s.position := by
  have := hadd.start_le
  rw [hadd.leaves, length_range']
  omega

/-- What was `Added` up to a marker and what was added since are added together. -/
theorem trans
    (hmore : Added input ⟨h.kind, h.children ++ new.toArray, h.around, s.problems, s.wrapped⟩
      s.position more s') :
    Added input h start (new ++ more) s' where
  frames := by
    rw [hmore.frames]
    simp
  start_le := Nat.le_trans hadd.start_le hmore.start_le
  le_size := hmore.le_size
  leaves := by
    have h1 := hadd.start_le
    have h2 := hmore.start_le
    rw [leavesAll_append, hadd.leaves, hmore.leaves]
    have := range'_append_1 (s := start) (m := s.position - start)
      (n := s'.position - s.position)
    rw [show start + (s.position - start) = s.position by omega] at this
    rw [this]
    congr 1
    omega
  orderly := by
    intro t ht
    rcases mem_append.mp ht with ht | ht
    · exact hadd.orderly t ht
    · exact hmore.orderly t ht
  noted := hadd.noted.trans hadd.start_le hadd.length_leaves hmore.noted

theorem marker_eq : s.builder.marker = h.children.size + new.length := by
  rw [Tree.Builder.marker, hadd.frames]
  simp

/-- `Added` looks at nothing but the position, the tree and the problems. -/
theorem congr (hpos : s'.position = s.position)
    (hframes : s'.builder.frames = s.builder.frames) (hnoted : Noted h start new s') :
    Added input h start new s' where
  frames := hframes.trans hadd.frames
  start_le := hpos ▸ hadd.start_le
  le_size := hpos ▸ hadd.le_size
  leaves := hpos ▸ hadd.leaves
  orderly := hadd.orderly
  noted := hnoted

end

end Added

end Grammar

end CodeLayout
