import CodeLayout.Proofs.Grammar.Lossless
import Mathlib.Data.List.Forall2

/-!
# Parsing does not depend on layout

Two sources may differ in everything between their significant tokens.  If these are of the same
kinds, and the same of them stand behind a close tag, the grammar reads the same row of symbols
(`symbols_eq`).  So the trees of both have one shape, with the tokens of each source at their leaves,
and the problems are the same, at tokens of the same position (`Parsed.SameSyntax`).
-/

namespace CodeLayout

namespace Tree

/-- The trees have the same shape and the same kinds of nodes, and `R` relates the tokens at each two
leaves that stand at one place. -/
inductive Alike (R : Nat → Nat → Prop) : Tree → Tree → Prop
  | leaf {i j v w : Nat} : R i j → Alike R (leaf i v) (leaf j w)
  | node {k : NodeKind} {v w : Nat} {cs ds : List Tree} : List.Forall₂ (Alike R) cs ds →
      Alike R (node k v cs) (node k w ds)

/-- `relabel` in two ways gives trees of the same shape. -/
theorem alike_relabel {R : Nat → Nat → Prop} {f g : Nat → Nat × Nat} (t : Tree)
    (h : ∀ i ∈ t.leaves, R (f i).1 (g i).1) : Alike R (t.relabel f) (t.relabel g) := by
  induction t using induct with
  | leaf i w =>
    rw [relabel, relabel]
    exact .leaf (h i (by simp))
  | node k w cs ih =>
    rw [relabel, relabel, relabelAll_eq_map, relabelAll_eq_map]
    refine .node ?_
    rw [List.forall₂_map_left_iff, List.forall₂_map_right_iff, List.forall₂_same]
    exact fun t ht => ih t ht fun i hi => h i (by simpa using (leaves_sublist_of_mem ht).subset hi)

end Tree

namespace Parsed

/-- The significant tokens of a parsed source. -/
def significant (p : Parsed) : Significant := Significant.ofTokens p.tokens

/-- The kind of the token at an index. -/
def kindAt (p : Parsed) (i : Nat) : TokenKind := (p.tokens.getD i default).kind

/-- The kinds of the significant tokens, in order. -/
def significantKinds (p : Parsed) : List TokenKind := p.significant.indices.toList.map p.kindAt

/-- Does a close tag stand right in front of the position? -/
def closedBefore (p : Parsed) (position : Nat) : Bool := p.significant.closedBefore p.tokens position

/-- The tokens of two sources are significant ones of the same position. -/
def SamePlace (p q : Parsed) (i j : Nat) : Prop :=
  ∃ position : Nat, p.significant.indices[position]? = some i ∧
    q.significant.indices[position]? = some j

/-- The tokens of two sources both stand for the end of the file. -/
def BothEnd (p q : Parsed) (i j : Nat) : Prop := p.kindAt i = .eof ∧ q.kindAt j = .eof

/-- The problem blames the token that it is reported at, or one byte where that is empty. -/
def Blames (p : Parsed) (e : SyntaxError) : Prop :=
  e.span.start = (p.tokens.getD e.token default).start ∧
    e.span.stop = max (p.tokens.getD e.token default).stop (e.span.start + 1)

/-- Two parsed sources differ only in what stands between their significant tokens. -/
structure SameSyntax (p q : Parsed) : Prop where
  tree : Tree.Alike (SamePlace p q) p.tree q.tree
  leaves : p.tree.leaves = p.significant.indices.toList
  leaves' : q.tree.leaves = q.significant.indices.toList
  errors : List.Forall₂ (fun e f : SyntaxError => e.cause = f.cause ∧
    (SamePlace p q e.token f.token ∨ BothEnd p q e.token f.token) ∧ p.Blames e ∧ q.Blames f)
    p.errors q.errors

section Correspondence

variable {p q : Parsed}

theorem size_significant : p.significantKinds.length = p.significant.indices.size := by
  rw [significantKinds, List.length_map, Array.length_toList]

theorem significantKinds_getElem? (position : Nat) :
    p.significantKinds[position]? = p.significant.indices[position]?.map p.kindAt := by
  rw [significantKinds, List.getElem?_map, Array.getElem?_toList]

/-- `symbols` are nothing but the kinds of the significant tokens and the close tags in front of
them. -/
theorem symbols_eq (hkinds : p.significantKinds = q.significantKinds)
    (hclosed : ∀ position ≤ p.significantKinds.length,
      p.closedBefore position = q.closedBefore position) :
    symbols p.tokens p.significant = symbols q.tokens q.significant := by
  have hsize : p.significant.indices.size = q.significant.indices.size := by
    rw [← size_significant, ← size_significant, hkinds]
  rw [size_significant] at hclosed
  unfold symbols
  congr 1
  · rw [← hsize]
    refine Array.map_congr_left fun position hmem => ?_
    have hlt : position < p.significant.indices.size := by simpa using hmem
    have hlt' : position < q.significant.indices.size := hsize ▸ hlt
    have hkind := congrArg (·[position]?) hkinds
    simp only [significantKinds_getElem?, Array.getElem?_eq_getElem hlt,
      Array.getElem?_eq_getElem hlt', Option.map_some, Option.some.injEq] at hkind
    refine congrArg₂ Grammar.Symbol.mk ?_ (hclosed position hlt.le)
    show p.kindAt _ = q.kindAt _
    rw [Array.getD_eq_getD_getElem?, Array.getD_eq_getD_getElem?, Array.getElem?_eq_getElem hlt,
      Array.getElem?_eq_getElem hlt']
    exact hkind
  · rw [← hsize]
    exact hclosed _ (Nat.le_refl _)

variable {position : Nat}

/-- A position inside both sources is the `SamePlace` of a significant token of each. -/
theorem samePlace_tokenAt (hp : position < p.significant.indices.size)
    (hq : position < q.significant.indices.size) :
    SamePlace p q (tokenAt p.tokens p.significant position)
      (tokenAt q.tokens q.significant position) := by
  refine ⟨position, ?_, ?_⟩
  · rw [tokenAt, Array.getD_eq_getD_getElem?, Array.getElem?_eq_getElem hp, Option.getD_some]
  · rw [tokenAt, Array.getD_eq_getD_getElem?, Array.getElem?_eq_getElem hq, Option.getD_some]

/-- `tokenAt` of a position behind the significant tokens stands for the end. -/
theorem kindAt_tokenAt (xs : List Lexeme)
    (h : (ofTokens (placed xs)).significant.indices.size ≤ position) :
    (ofTokens (placed xs)).kindAt
      (tokenAt (placed xs) (ofTokens (placed xs)).significant position) = .eof := by
  rw [tokenAt, Array.getD_eq_getD_getElem?, Array.getElem?_eq_none h, Option.getD_none]
  exact Option.some.inj (kindOf_last xs)

/-- `ofTokens` answers the tree of the symbols, over the tokens. -/
theorem tree_eq_relabel (tokens : Array Token) : (ofTokens tokens).tree =
    (Grammar.parse (input tokens)).tree.relabel fun position =>
      (tokenAt tokens (Significant.ofTokens tokens) position,
        (tokens.getD (tokenAt tokens (Significant.ofTokens tokens) position) default).length) := rfl

theorem errors_eq_map (tokens : Array Token) : (ofTokens tokens).errors =
    (Grammar.parse (input tokens)).problems.toList.map
      (locate tokens (Significant.ofTokens tokens)) := by
  rw [← Array.toList_map]
  rfl

/-- Sources with the same significant kinds, closed at the same positions, are parsed alike: layout
between the tokens, markup included, changes neither the tree nor the problems. -/
theorem ofSource_sameSyntax {source source' : String} (hp : ofSource source = .ok p)
    (hq : ofSource source' = .ok q) (hkinds : p.significantKinds = q.significantKinds)
    (hclosed : ∀ position ≤ p.significantKinds.length,
      p.closedBefore position = q.closedBefore position) :
    SameSyntax p q := by
  have hsymbols := symbols_eq hkinds hclosed
  have hsize : p.significant.indices.size = q.significant.indices.size := by
    rw [← size_significant, ← size_significant, hkinds]
  obtain ⟨xs, -, rfl⟩ := ofSource_eq_ok_iff.mp hp
  obtain ⟨ys, -, rfl⟩ := ofSource_eq_ok_iff.mp hq
  have hinput : input (placed xs) = input (placed ys) := hsymbols
  refine ⟨?_, leaves_ofTokens _, leaves_ofTokens _, ?_⟩
  · rw [tree_eq_relabel, tree_eq_relabel, hinput]
    refine Tree.alike_relabel _ fun position hmem => ?_
    rw [(Grammar.parse_complete _).1, List.mem_range] at hmem
    have hlt : position < (ofTokens (placed ys)).significant.indices.size := by
      rwa [input, symbols, Array.size_map, Array.size_range] at hmem
    exact samePlace_tokenAt (hsize ▸ hlt) hlt
  · rw [errors_eq_map, errors_eq_map, hinput, List.forall₂_map_left_iff, List.forall₂_map_right_iff,
      List.forall₂_same]
    refine fun problem _ => ⟨rfl, ?_, ⟨rfl, rfl⟩, ⟨rfl, rfl⟩⟩
    rcases Nat.lt_or_ge problem.position (ofTokens (placed ys)).significant.indices.size
      with hlt | hge
    · exact .inl (samePlace_tokenAt (hsize ▸ hlt) hlt)
    · exact .inr ⟨kindAt_tokenAt xs (hsize ▸ hge), kindAt_tokenAt ys hge⟩

end Correspondence

/-- A condition that breaks off and a call that is not closed, once in one section of code and once
spread over lines, comments and markup. -/
theorem ofSource_sameSyntax_malformed : ∃ p q,
    ofSource "<?php if(1+){foo([$a}echo 2?><?=$b" = .ok p ∧
      ofSource "<p>\n<?php if ( 1\n + ) // a\n{ foo( [$a }\n/* b */ echo 2 ?> <hr> <?= $b\n" = .ok q ∧
      p.errors ≠ [] ∧ SameSyntax p q := by
  have hcheck : (ofSource "<?php if(1+){foo([$a}echo 2?><?=$b").toOption.any (fun p =>
      (ofSource "<p>\n<?php if ( 1\n + ) // a\n{ foo( [$a }\n/* b */ echo 2 ?> <hr> <?= $b\n").toOption.any
        fun q => decide (p.errors ≠ []) && decide (p.significantKinds = q.significantKinds) &&
          decide (∀ position ≤ p.significantKinds.length,
            p.closedBefore position = q.closedBefore position)) = true := by decide +kernel
  cases hp : ofSource "<?php if(1+){foo([$a}echo 2?><?=$b" with
  | error e =>
      rw [hp] at hcheck
      cases hcheck
  | ok p =>
      cases hq : ofSource
          "<p>\n<?php if ( 1\n + ) // a\n{ foo( [$a }\n/* b */ echo 2 ?> <hr> <?= $b\n" with
      | error e =>
          rw [hp, hq] at hcheck
          cases hcheck
      | ok q =>
          rw [hp, hq] at hcheck
          simp only [Except.toOption, Option.any_some, Bool.and_eq_true, decide_eq_true_eq] at hcheck
          exact ⟨p, q, rfl, rfl, hcheck.1.1, ofSource_sameSyntax hp hq hcheck.1.2 hcheck.2⟩

end Parsed

end CodeLayout
