import CodeLayout.Proofs.Format.Check
import CodeLayout.Proofs.Grammar.Recovery
import CodeLayout.Proofs.Grammar.Whole

/-!
# Problems and error nodes

The check for syntax problems looks at the list of problems, the layout at the error nodes of the
tree.  Both see the same: every problem is marked by an error node, and a tree without problems is
whole, so that it has none.  The problems stand in the order in which their tokens do, since they are
reported where the parse is and the parse only goes forward.
-/

namespace CodeLayout

namespace Parsed

/-- A tree inside is an `error` node exactly if there is a problem. -/
theorem exists_error_iff (xs : List Lexeme) :
    (∃ t ∈ (ofTokens (placed xs)).tree.subtrees, t.isKind .error = true) ↔
      (ofTokens (placed xs)).errors ≠ [] := by
  constructor
  · rintro ⟨t, ht, hkind⟩ hnone
    cases t with
    | leaf i w => cases hkind
    | node k w cs =>
      -- a whole tree asks for what no error node has
      have hwhole := Tree.Every.of_mem_subtrees _ (whole_of_errors hnone) k w cs ht
      have hk : k = .error := eq_of_beq hkind
      rw [hk] at hwhole
      exact hwhole
  · intro hsome
    obtain ⟨e, he⟩ := List.exists_mem_of_ne_nil _ hsome
    obtain ⟨p, hp, -⟩ : ∃ p ∈ (Grammar.parse
        (symbols (placed xs) (Significant.ofTokens (placed xs)))).problems, locate _ _ p = e := by
      simpa [ofTokens] using he
    obtain ⟨ts, htree, hattributed⟩ := Grammar.parse_attributed _
    obtain ⟨us, t, vs, n, before, behind, rfl, hinside, hkind, -⟩ := hattributed p hp
    -- the node that marks the problem lies inside a statement, and so inside the program
    have hprogram : n.Inside (.branch .program (us ++ t :: vs)) _ _ := .child hinside
    rw [ofTokens, htree]
    exact ⟨_, (hprogram.relabel _).mem_subtrees, by rw [Tree.isKind_relabel, hkind]⟩

theorem errors_ordered (tokens : Array Token) :
    (ofTokens tokens).errors.Pairwise fun e e' => e.token ≤ e'.token := by
  rw [ofTokens, Array.toList_map]
  refine List.pairwise_map.mpr ((Grammar.parse_problems_ordered _).imp fun hle => ?_)
  exact tokenAt_mono tokens hle

end Parsed

/-- `checkSyntax` of a readable source finds no fault exactly if there is no `error` node in its
tree; the problems that it answers otherwise stand in the order of their tokens. -/
theorem checkSyntax_agrees {source : String} {parsed : Parsed}
    (h : Parsed.ofSource source = .ok parsed) :
    (checkSyntax source = .ok () ↔ ∀ t ∈ parsed.tree.subtrees, t.isKind .error = false) ∧
      ∀ e, checkSyntax source = .error e →
        ∃ errors, e = .malformed errors ∧ errors.Pairwise fun a b => a.token ≤ b.token := by
  obtain ⟨xs, -, rfl⟩ := Parsed.ofSource_eq_ok_iff.mp h
  rw [checkSyntax_eq h]
  constructor
  · have hiff := Parsed.exists_error_iff xs
    split
    · next hnone =>
      refine ⟨fun _ t ht => ?_, fun _ => rfl⟩
      by_contra hkind
      exact hiff.mp ⟨t, ht, by simpa using hkind⟩ hnone
    · next hsome =>
      obtain ⟨t, ht, hkind⟩ := hiff.mpr hsome
      refine ⟨nofun, fun hall => ?_⟩
      rw [hall t ht] at hkind
      cases hkind
  · intro e he
    split at he
    · cases he
    · cases he
      exact ⟨_, rfl, Parsed.errors_ordered _⟩

/-- A source with a problem in each of two statements. -/
theorem checkSyntax_agrees_malformed : ∃ parsed,
    Parsed.ofSource "<?php if (1 +) a(); b(2 +);" = .ok parsed ∧
      (checkSyntax "<?php if (1 +) a(); b(2 +);" = .ok () ↔
        ∀ t ∈ parsed.tree.subtrees, t.isKind .error = false) ∧
      ∃ errors, checkSyntax "<?php if (1 +) a(); b(2 +);" = .error (.malformed errors) ∧
        1 < errors.length ∧ errors.Pairwise fun a b => a.token ≤ b.token := by
  have hparsed : (Parsed.ofSource "<?php if (1 +) a(); b(2 +);").toOption.any
      (fun p => 1 < p.errors.length) = true := by decide +kernel
  obtain ⟨parsed, h, hparsed⟩ := exists_ok_of_any hparsed
  have hlength : 1 < parsed.errors.length := of_decide_eq_true hparsed
  have hmalformed : checkSyntax "<?php if (1 +) a(); b(2 +);" =
      .error (.malformed parsed.errors) := by
    rw [checkSyntax_eq h, if_neg]
    intro hnone
    rw [hnone] at hlength
    cases hlength
  obtain ⟨hiff, hordered⟩ := checkSyntax_agrees h
  obtain ⟨errors, heq, hpairs⟩ := hordered _ hmalformed
  cases heq
  exact ⟨parsed, h, hiff, _, hmalformed, hlength, hpairs⟩

end CodeLayout
