import CodeLayout.Proofs.Grammar.Lossless

/-!
# Where problems are marked

A statement that leads to problems ends up in an error node, or has one inside.  The problems are
only counted, so the first statement that ends after a problem is the one that is wrapped for it: a
problem in the head of a statement may be marked at the statement in its body.  What holds of every
problem is that the outermost statement that it belongs to has an error node inside, and that this
node does not end before the problem.
-/

namespace CodeLayout

open List

namespace Grammar

/-! ## Statement by statement -/

/-- One of the trees, which begins at the position or in front of it, has an error node inside that
reaches up to the position or beyond it. -/
def Attributed (ts : List Tree) (position : Nat) : Prop :=
  ∃ (us : List Tree) (t : Tree) (vs : List Tree) (n : Tree) (before behind : List Nat),
    ts = us ++ t :: vs ∧ n.Inside t before behind ∧ n.isKind .error = true ∧
      (Tree.leavesAll us).length ≤ position ∧
        position ≤ (Tree.leavesAll us).length + (before ++ n.leaves).length

variable {ts us : List Tree} {position : Nat} {input : Input} {s : State}

theorem Attributed.append (h : Attributed ts position) : Attributed (ts ++ us) position := by
  obtain ⟨as, t, bs, n, before, behind, rfl, hrest⟩ := h
  exact ⟨as, t, bs ++ us, n, before, behind, by simp, hrest⟩

/-- A lone tree that is `Marked` at a position is the one to which the position is attributed. -/
theorem Marked.attributed (hlone : Lone us) (hle : (Tree.leavesAll ts).length ≤ position)
    (h : Marked (Tree.leavesAll ts).length us position) : Attributed (ts ++ us) position := by
  obtain ⟨as, t, bs, n, before, behind, rfl, hinside, hkind, hto⟩ := h
  have hlength := hlone.1
  simp only [length_append, length_cons] at hlength
  -- among at most one tree there is nothing beside the one with the node
  have has : as = [] := length_eq_zero_iff.mp (by omega)
  have hbs : bs = [] := length_eq_zero_iff.mp (by omega)
  subst has hbs
  exact ⟨ts, t, [], n, before, behind, rfl, hinside, hkind, hle, hto⟩

/-- The trees of the program so far, with every problem wrapped and attributed to one of them. -/
structure Recovered (input : Input) (ts : List Tree) (s : State) : Prop where
  added : Added input rootHole 0 ts s
  wrapped : s.wrapped = s.problems.size
  attributed : ∀ (j : Nat) p, s.problems[j]? = some p → Attributed ts p.position

/-- `Recovered` behind a parse that settles its problems: it keeps all of them attributed. -/
theorem Recovered.step {p : Parse Unit} (h : Recovered input ts s)
    (hp : Adds input (Settled input) p s) :
    ∃ us, Recovered input (ts ++ us) (after p input s) := by
  obtain ⟨us, hus, ⟨hlone, -⟩, hwrapped⟩ := hp _ _ _ h.added.here
  rw [nil_append] at hus
  refine ⟨us, h.added.trans hus, hwrapped, ?_⟩
  intro j q hq
  by_cases hj : j < s.problems.size
  · -- a problem of an earlier statement
    have hkept := hus.noted.kept j _ (Array.getElem?_eq_getElem hj)
    rw [hkept] at hq
    cases hq
    exact (h.attributed j _ (Array.getElem?_eq_getElem hj)).append
  · -- a problem of this statement
    have hold := Nat.le_of_not_lt hj
    have hsize := (Array.getElem?_eq_some_iff.mp hq).1
    have hmarked := hus.noted.marked j q (h.wrapped ▸ hold) (hwrapped ▸ hsize) hq
    have hlength := h.added.length_leaves
    rw [Nat.zero_add] at hlength
    rw [← hlength] at hmarked
    exact hmarked.attributed hlone (hlength ▸ hus.noted.fresh j q hold hq)

/-- `repeatUpTo` keeps what a step keeps, together with the record of a bound. -/
theorem after_repeatUpTo {P : State → Prop} {step : Parse Bool}
    (hcut : ∀ s, P s → P { s with cutShort := true }) (hstep : ∀ s, P s → P (after step input s))
    (n : Nat) (hs : P s) : P (after (repeatUpTo step n) input s) := by
  induction n generalizing s with
  | zero => exact hcut s hs
  | succ n ih =>
    show P (after (if answer step input s = true then repeatUpTo step n else pure ()) input
      (after step input s))
    split
    · exact ih (hstep s hs)
    · exact hstep s hs

theorem recovered_statements (depth : Nat) (hs : ∃ ts, Recovered input ts s) :
    ∃ ts, Recovered input ts (after (statements depth) input s) := by
  refine after_repeatUpTo (P := fun s => ∃ ts, Recovered input ts s) ?_ ?_ _ hs
  · rintro s ⟨ts, h⟩
    exact ⟨ts, h.added.congr rfl rfl (h.added.noted.congr rfl rfl rfl), h.wrapped, h.attributed⟩
  · rintro s ⟨ts, h⟩
    show ∃ ts, Recovered input ts (after (if answer atEnd input s = true then pure false else do
      statement (Rule.run depth)
      pure true) input s)
    split
    · exact ⟨ts, h⟩
    · obtain ⟨us, hus⟩ := h.step ((adds_statement depth input s).mono fun _ _ hs => hs.1)
      exact ⟨ts ++ us, hus⟩

/-- Every problem of a parse is `Attributed` to one of the statements of the program. -/
theorem parse_attributed (input : Input) : ∃ ts, (parse input).tree = .branch .program ts ∧
    ∀ p ∈ (parse input).problems, Attributed ts p.position := by
  obtain ⟨ts, h⟩ := recovered_statements (depthBound input) (s := startState)
    ⟨[], added_startState input, rfl, nofun⟩
  refine ⟨ts, tree_parse h.added, fun p hp => ?_⟩
  obtain ⟨j, hj⟩ := Array.mem_iff_getElem?.mp hp
  exact h.attributed j p hj

end Grammar

/-! ## Errors of a source -/

namespace Tree

/-- An error node inside one of the statements accounts for the token: the token stands in that
statement, in front of the node or inside, or it is the first one behind the node. -/
def Accounted (statements : List Tree) (token : Nat) : Prop :=
  ∃ (us : List Tree) (statement : Tree) (vs : List Tree) (n : Tree) (before behind : List Nat),
    statements = us ++ statement :: vs ∧ n.Inside statement before behind ∧
      n.isKind .error = true ∧
        (token ∈ before ++ n.leaves ∨ (behind ++ leavesAll vs).head? = some token)

theorem Accounted.map_leaves {ts : List Tree} {i : Nat} (h : Accounted ts i)
    (f : Nat → Nat × Nat) : Accounted (relabelAll f ts) (f i).1 := by
  obtain ⟨us, t, vs, n, before, behind, rfl, hinside, hkind, hplace⟩ := h
  refine ⟨relabelAll f us, relabel f t, relabelAll f vs, relabel f n, _, _, ?_, hinside.relabel f,
    ?_, ?_⟩
  · simp [relabelAll_eq_map]
  · rw [isKind_relabel, hkind]
  · rw [leaves_relabel, leavesAll_relabelAll, ← map_append, ← map_append, head?_map]
    rcases hplace with hmem | hhead
    · exact .inl (mem_map_of_mem hmem)
    · exact .inr (by rw [hhead, Option.map_some])

end Tree

/-- Where the leaves count the positions, a position lies in the tree to which it is `Attributed`,
or right behind the error node. -/
theorem Grammar.Attributed.accounted {ts : List Tree} {m q : Nat} (h : Attributed ts q)
    (hrow : Tree.leavesAll ts = List.range m) (hq : q < m) : Tree.Accounted ts q := by
  obtain ⟨us, t, vs, n, before, behind, rfl, hinside, hkind, hfrom, hto⟩ := h
  refine ⟨us, t, vs, n, before, behind, rfl, hinside, hkind, ?_⟩
  have hat : (Tree.leavesAll us ++ ((before ++ n.leaves) ++ (behind ++ Tree.leavesAll vs)))[q]? =
      some q := by
    rw [← getElem?_range hq, ← hrow, Tree.leavesAll_append, Tree.leavesAll_cons,
      hinside.leaves_eq]
    simp
  rw [getElem?_append_right hfrom] at hat
  -- in front of the end of the error node, or right behind it
  rcases Nat.lt_or_eq_of_le hto with hlt | heq
  · rw [getElem?_append_left (by omega)] at hat
    exact .inl (mem_of_getElem? hat)
  · have hzero : q - (Tree.leavesAll us).length - (before ++ n.leaves).length = 0 := by omega
    rw [getElem?_append_right (by omega), hzero] at hat
    exact .inr (head?_eq_getElem?.trans hat)

namespace Parsed

/-- A problem at a significant token is `Accounted` for. -/
theorem accounted_ofTokens {tokens : Array Token} {p : Grammar.Problem}
    (hp : p ∈ (Grammar.parse (symbols tokens (Significant.ofTokens tokens))).problems)
    (hlt : p.position < (Significant.ofTokens tokens).indices.size) :
    Tree.Accounted (ofTokens tokens).tree.children
      (tokenAt tokens (Significant.ofTokens tokens) p.position) := by
  obtain ⟨ts, htree, hattributed⟩ :=
    Grammar.parse_attributed (symbols tokens (Significant.ofTokens tokens))
  have hrow := (Grammar.parse_complete (symbols tokens (Significant.ofTokens tokens))).1
  rw [htree, Tree.leaves_branch] at hrow
  have haccounted := (hattributed p hp).accounted hrow (by simpa [symbols] using hlt)
  rw [ofTokens, htree]
  exact haccounted.map_leaves _

/-- Every problem of a source that is not at its end is accounted for by an error node inside the
statement in which it lies, or behind which it stands. -/
theorem ofSource_errors_accounted {source : String} {parsed : Parsed}
    (h : ofSource source = .ok parsed) {e : SyntaxError} (he : e ∈ parsed.errors)
    (hend : (parsed.tokens.getD e.token default).kind ≠ .eof) :
    Tree.Accounted parsed.tree.children e.token := by
  obtain ⟨xs, -, rfl⟩ := ofSource_eq_ok_iff.mp h
  obtain ⟨p, hp, rfl⟩ := List.mem_map.mp (by simpa [ofTokens] using he :
    e ∈ (Grammar.parse (symbols (placed xs) (Significant.ofTokens (placed xs)))).problems.toList.map
      (locate (placed xs) (Significant.ofTokens (placed xs))))
  refine accounted_ofTokens (by simpa using hp) ?_
  by_contra hle
  -- a position behind all symbols stands for the token at the end
  refine hend ?_
  have htoken : tokenAt (placed xs) (Significant.ofTokens (placed xs)) p.position = xs.length := by
    rw [tokenAt, Array.getD_eq_getD_getElem?, Array.getElem?_eq_none (Nat.le_of_not_lt hle),
      Option.getD_none, placed_size, Nat.add_sub_cancel]
  show ((placed xs).getD (tokenAt _ _ p.position) default).kind = .eof
  rw [htoken, Array.getD_eq_getD_getElem?, placed_getElem?_end]
  rfl

/-- The condition of a statement breaks off, and the statement in its body is sound. -/
theorem ofSource_errors_accounted_head : ∃ parsed e,
    ofSource "<?php if (1 +) foo();" = .ok parsed ∧ e ∈ parsed.errors ∧
      (parsed.tokens.getD e.token default).kind ≠ .eof ∧
        Tree.Accounted parsed.tree.children e.token := by
  have hparsed : (ofSource "<?php if (1 +) foo();").toOption.any (fun p =>
      p.errors.any fun e => (p.tokens.getD e.token default).kind != .eof) = true := by
    decide +kernel
  obtain ⟨parsed, h, hparsed⟩ := exists_ok_of_any hparsed
  obtain ⟨e, he, hend⟩ := List.any_eq_true.mp hparsed
  have hkind : (parsed.tokens.getD e.token default).kind ≠ .eof := by simpa using hend
  exact ⟨parsed, e, h, he, hkind, ofSource_errors_accounted h he hkind⟩

/-- All error nodes of a source may begin behind a problem: that of a condition is marked at the
statement in the body. -/
theorem ofSource_error_ahead : ∃ parsed e,
    ofSource "<?php if (1 +) foo();" = .ok parsed ∧ e ∈ parsed.errors ∧
      (parsed.tokens.getD e.token default).kind ≠ .eof ∧
        ∀ n ∈ parsed.tree.subtrees, n.isKind .error = true →
          ∃ first, n.first? = some first ∧ e.token < first := by
  have hparsed : (ofSource "<?php if (1 +) foo();").toOption.any (fun p =>
      p.errors.any fun e => (p.tokens.getD e.token default).kind != .eof &&
        p.tree.subtrees.all fun n => !n.isKind .error || n.first?.any (e.token < ·)) = true := by
    decide +kernel
  obtain ⟨parsed, h, hparsed⟩ := exists_ok_of_any hparsed
  obtain ⟨e, he, hall⟩ := List.any_eq_true.mp hparsed
  obtain ⟨hend, hnodes⟩ := Bool.and_eq_true_iff.mp hall
  refine ⟨parsed, e, h, he, by simpa using hend, fun n hn hkind => ?_⟩
  have hfirst := List.all_eq_true.mp hnodes n hn
  rw [hkind, Bool.not_true, Bool.false_or, Option.any_eq_true] at hfirst
  obtain ⟨first, heq, hlt⟩ := hfirst
  exact ⟨first, heq, of_decide_eq_true hlt⟩

end Parsed

end CodeLayout
