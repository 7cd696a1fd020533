import CodeLayout.Parsed
import CodeLayout.Proofs.Grammar.Shape
import CodeLayout.Proofs.Token.Tiling

/-!
# From positions to tokens

The grammar counts significant tokens; a parsed source names them by their indices.  The indices of
the significant tokens grow (`Significant.sorted_seen`), so the leaves of a parsed tree are tokens in the
order of the source, and what the grammar keeps in order stays so (`Parsed.ofTokens_spec`).
-/

namespace CodeLayout

open List
open CodeLayout.Tree (Formed Led relabelAll relabelAll_eq_map)

namespace Significant

/-- Does the grammar see the token? -/
def isSeen (t : Token) : Bool := !t.isTrivia && t.kind != .eof

/-- The indices of the tokens that the grammar sees, counted from the given one on. -/
def seen (index : Nat) : List Token → List Nat
  | [] => []
  | t :: ts => if isSeen t then index :: seen (index + 1) ts else seen (index + 1) ts

theorem indices_collect (ts : List Token) (index : Nat) (pending : List Nat) (acc : Significant) :
    (collect index pending acc ts).indices.toList = acc.indices.toList ++ seen index ts := by
  induction ts generalizing index pending acc with
  | nil => simp [collect, seen]
  | cons t ts ih =>
    rw [collect, seen]
    cases htrivia : t.isTrivia with
    | true => simp [isSeen, htrivia, ih]
    | false =>
      by_cases heof : t.kind = .eof
      · simp [isSeen, htrivia, heof, ih]
      · simp [isSeen, htrivia, heof, ih]

theorem indices_ofTokens (tokens : Array Token) :
    (ofTokens tokens).indices.toList = seen 0 tokens.toList := by
  rw [ofTokens, indices_collect]
  rfl

/-- Every index that is `seen` is that of a token which the grammar sees. -/
theorem mem_seen {ts : List Token} {index i : Nat} (h : i ∈ seen index ts) :
    index ≤ i ∧ ∃ t, ts[i - index]? = some t ∧ isSeen t = true := by
  induction ts generalizing index with
  | nil => simp [seen] at h
  | cons t ts ih =>
    rw [seen] at h
    have hrest : i ∈ seen (index + 1) ts →
        index ≤ i ∧ ∃ t', (t :: ts)[i - index]? = some t' ∧ isSeen t' = true := by
      intro hmem
      obtain ⟨hle, t', ht', hs⟩ := ih hmem
      refine ⟨by omega, t', ?_, hs⟩
      rw [show i - index = (i - (index + 1)) + 1 by omega, getElem?_cons_succ]
      exact ht'
    split at h
    · next hseen =>
      rcases mem_cons.mp h with rfl | hmem
      · exact ⟨Nat.le_refl _, t, by simp, hseen⟩
      · exact hrest hmem
    · exact hrest h

/-- The indices that are `seen` grow. -/
theorem sorted_seen (ts : List Token) (index : Nat) : (seen index ts).Pairwise (· < ·) := by
  induction ts generalizing index with
  | nil => exact .nil
  | cons t ts ih =>
    rw [seen]
    split
    · refine .cons (fun i hi => ?_) (ih _)
      exact (mem_seen hi).1
    · exact ih _

end Significant

namespace Parsed

/-- The kind of the token at an index. -/
def kindOf (tokens : Array Token) (i : Nat) : Option TokenKind :=
  some (tokens.getD i default).kind

section OfTokens

variable (tokens : Array Token)

/-- `tokenAt` gives the row of leaves over tokens, from the positions that the grammar passed. -/
theorem map_tokenAt_range {n : Nat} (hn : n ≤ (Significant.ofTokens tokens).indices.size) :
    (List.range n).map (tokenAt tokens (Significant.ofTokens tokens)) =
      (Significant.seen 0 tokens.toList).take n := by
  rw [← Significant.indices_ofTokens]
  apply ext_getElem?
  intro i
  by_cases hi : i < n
  · have hi' : i < (Significant.ofTokens tokens).indices.size := by omega
    rw [getElem?_map, getElem?_range hi, getElem?_take_of_lt hi, Option.map_some,
      Array.getElem?_toList, Array.getElem?_eq_getElem hi', tokenAt, Array.getD_eq_getD_getElem?,
      Array.getElem?_eq_getElem hi', Option.getD_some]
  · rw [getElem?_eq_none (by simp; omega), getElem?_eq_none (by simp; omega)]

/-- `tokenAt` takes a later position to a later token, or to the end like the one before it. -/
theorem tokenAt_mono {i j : Nat} (hij : i ≤ j) :
    tokenAt tokens (Significant.ofTokens tokens) i ≤
      tokenAt tokens (Significant.ofTokens tokens) j := by
  have hsorted := Significant.sorted_seen tokens.toList 0
  rw [← Significant.indices_ofTokens] at hsorted
  unfold tokenAt
  rw [Array.getD_eq_getD_getElem?, Array.getD_eq_getD_getElem?]
  by_cases hj : j < (Significant.ofTokens tokens).indices.size
  · have hi := Nat.lt_of_le_of_lt hij hj
    rw [Array.getElem?_eq_getElem hi, Array.getElem?_eq_getElem hj, Option.getD_some,
      Option.getD_some]
    rcases Nat.lt_or_eq_of_le hij with hlt | rfl
    · exact (pairwise_iff_getElem.mp hsorted i j (by simpa using hi) (by simpa using hj) hlt).le
    · exact Nat.le_refl _
  · rw [Array.getElem?_eq_none (Nat.le_of_not_lt hj), Option.getD_none]
    by_cases hi : i < (Significant.ofTokens tokens).indices.size
    · -- a significant token is one of the tokens
      rw [Array.getElem?_eq_getElem hi, Option.getD_some]
      have hmem : (Significant.ofTokens tokens).indices[i] ∈ Significant.seen 0 tokens.toList := by
        rw [← Significant.indices_ofTokens]
        simp
      obtain ⟨-, t, ht, -⟩ := Significant.mem_seen hmem
      have hlt := (List.getElem?_eq_some_iff.mp ht).1
      rw [Array.length_toList] at hlt
      omega
    · rw [Array.getElem?_eq_none (Nat.le_of_not_lt hi), Option.getD_none]

/-- The symbols of a token sequence, as the grammar reads them. -/
def input : Grammar.Input := symbols tokens (Significant.ofTokens tokens)

/-- Positions are labelled by the tokens that they stand for, and the last token stands for the end. -/
structure Labels (f : Nat → Nat × Nat) : Prop where
  token : ∀ i, (f i).1 = tokenAt tokens (Significant.ofTokens tokens) i
  last : kindOf tokens (tokens.size - 1) = some .eof

variable {tokens} {kind : TokenKind} {t : Tree} {f : Nat → Nat × Nat} {cs : List Tree}

section Labels

variable (hf : Labels tokens f)
include hf

/-- Signs of a tree after `relabel` are signs of the tree. -/
theorem isSign_of_relabel (hkind : kind ≠ .eof) (h : (t.relabel f).IsSign (kindOf tokens) kind) :
    t.IsSign (input tokens).kind? kind := by
  cases t with
  | leaf i w =>
    rw [Tree.relabel, Tree.IsSign, hf.token] at h
    show (input tokens).kind? i = some kind
    by_cases hi : i < (Significant.ofTokens tokens).indices.size
    · rw [Grammar.Input.kind?, input, symbols]
      simp only [tokenAt, Array.getD_eq_getD_getElem?, Array.getElem?_eq_getElem hi,
        Option.getD_some, kindOf, Option.some.injEq] at h
      simp [hi, h, Array.getD_eq_getD_getElem?]
    · rw [tokenAt, Array.getD_eq_getD_getElem?, Array.getElem?_eq_none (by omega), Option.getD_none,
        hf.last] at h
      exact absurd (Option.some.inj h).symm hkind
  | node k w cs =>
    rw [Tree.relabel, Tree.branch] at h
    exact h.elim

theorem paired_relabelAll {opening closing : TokenKind} (hopen : opening ≠ .eof)
    (hclose : closing ≠ .eof) (h : Tree.Paired (input tokens).kind? opening closing cs) :
    Tree.Paired (kindOf tokens) opening closing (relabelAll f cs) := by
  rw [relabelAll_eq_map]
  refine pairwise_map.mpr (h.imp fun hab hsigns => hab ?_)
  exact ⟨isSign_of_relabel hf hclose hsigns.1, isSign_of_relabel hf hopen hsigns.2⟩

/-! ### Nodes outside of error nodes -/

/-- `relabel` takes a position that the grammar knows to a token of that kind. -/
theorem isSign_relabel (h : t.IsSign (input tokens).kind? kind) :
    (t.relabel f).IsSign (kindOf tokens) kind := by
  cases t with
  | leaf i w =>
    rw [Tree.relabel, Tree.IsSign, hf.token, kindOf, tokenAt]
    rw [Tree.IsSign, Grammar.Input.kind?, input, symbols] at h
    obtain ⟨symbol, hsymbol, rfl⟩ := Option.map_eq_some_iff.mp h
    have hi := (Array.getElem?_eq_some_iff.mp hsymbol).1
    rw [Array.size_map, Array.size_range] at hi
    rw [Array.getElem?_map, Array.getElem?_range, if_pos hi] at hsymbol
    cases hsymbol
    simp [Array.getD_eq_getD_getElem?, hi]
  | node k w cs => exact h.elim

theorem led_relabelAll (h : Led (input tokens).kind? cs) :
    Led (kindOf tokens) (relabelAll f cs) := by
  obtain ⟨t, rest, kind, rfl, ht, hkind⟩ := h
  exact ⟨t.relabel f, relabelAll f rest, kind, by rw [relabelAll], isSign_relabel hf ht, hkind⟩

omit hf in
theorem leaves_relabel_ne_nil (h : t.leaves ≠ []) : (t.relabel f).leaves ≠ [] := by
  rw [Tree.leaves_relabel]
  simpa using h

omit hf in
theorem headed_relabelAll {P Q : Tree → Prop} (hPQ : ∀ t, P t → Q (t.relabel f))
    (h : Tree.Headed P cs) : Tree.Headed Q (relabelAll f cs) := by
  intro t ht
  rw [relabelAll_eq_map, head?_map] at ht
  obtain ⟨u, hu, rfl⟩ := Option.map_eq_some_iff.mp ht
  exact (h u hu).imp leaves_relabel_ne_nil (hPQ u)

/-- A node that is `Formed` is so over the tokens that its leaves stand for. -/
theorem formed_relabelAll {kind : NodeKind} (h : Formed (input tokens).kind? kind cs) :
    Formed (kindOf tokens) kind (relabelAll f cs) := by
  have hnottag {u : Tree} (hu : ¬ u.IsSign (input tokens).kind? .openTagWithEcho) :
      ¬ (u.relabel f).IsSign (kindOf tokens) .openTagWithEcho :=
    fun htag => hu (isSign_of_relabel hf (by decide) htag)
  cases kind
  case attributeGroup | elseIfClause | elseClause | whileStmt | foreachStmt | switchStmt | caseClause |
      catchClause | finallyClause | emptyStmt | closureUse | groupUseList =>
    exact led_relabelAll hf h
  case ifStmt =>
    refine ⟨led_relabelAll hf h.1, fun front t behind heq hsign u hu => ?_⟩
    rw [relabelAll_eq_map] at heq
    obtain ⟨front', rest, rfl, -, hrest⟩ := map_eq_append_iff.mp heq
    obtain ⟨t', behind', rfl, rfl, rfl⟩ := map_eq_cons_iff.mp hrest
    rw [← map_drop] at hu
    obtain ⟨u', hu', rfl⟩ := mem_map.mp hu
    simp only [Tree.isKind_relabel]
    exact h.2 front' t' behind' rfl (isSign_of_relabel hf (by decide) hsign) u' hu'
  case switchBody =>
    refine Tree.forall_mem_relabelAll.mpr fun u hu hnode => ?_
    rw [Tree.isNode_relabel] at hnode
    rw [Tree.isKind_relabel]
    exact h u hu hnode
  case binaryExpr | instanceofExpr | coalesceExpr =>
    intro t ht
    rw [relabelAll_eq_map, getElem?_map] at ht
    obtain ⟨u, hu, rfl⟩ := Option.map_eq_some_iff.mp ht
    exact hnottag (h u hu)
  case postfixExpr =>
    intro t ht
    rw [relabelAll_eq_map, getLast?_map] at ht
    obtain ⟨u, hu, rfl⟩ := Option.map_eq_some_iff.mp ht
    exact hnottag (h u hu)
  case param => exact headed_relabelAll (fun _ => id) h
  case propertyDecl | classConstDecl =>
    refine headed_relabelAll (fun t ht => ?_) h
    rwa [Tree.isKind_relabel]
  case program =>
    refine Tree.forall_mem_relabelAll.mpr fun u hu => ?_
    rw [Tree.isNode_relabel]
    exact ⟨(h u hu).1, leaves_relabel_ne_nil (h u hu).2⟩
  all_goals trivial

end Labels

end OfTokens

/-- `kindOf` the last token is the end. -/
theorem kindOf_last (xs : List Lexeme) : kindOf (placed xs) ((placed xs).size - 1) = some .eof := by
  rw [kindOf, placed_size, Nat.add_sub_cancel, Array.getD_eq_getD_getElem?, placed_getElem?_end]
  rfl

/-- `ofTokens` answers a tree whose leaves are tokens in order, the one at the end not among them,
with braces and parentheses in order at every node. -/
theorem ofTokens_spec (xs : List Lexeme) :
    (ofTokens (placed xs)).tree.leaves.Pairwise (· < ·) ∧
      (∀ i ∈ (ofTokens (placed xs)).tree.leaves,
        ∃ x, xs[i]? = some x ∧ x.kind.isTrivia = false) ∧
      (ofTokens (placed xs)).tree.Every (Tree.Orderly (kindOf (placed xs))) := by
  obtain ⟨hn, hleaves, horderly⟩ :=
    Grammar.parse_spec (symbols (placed xs) (Significant.ofTokens (placed xs)))
  generalize (Grammar.finalState _).position = n at hn hleaves
  have hsize : (symbols (placed xs) (Significant.ofTokens (placed xs))).symbols.size =
      (Significant.ofTokens (placed xs)).indices.size := by simp [symbols]
  have hlast := kindOf_last xs
  have hrow : (ofTokens (placed xs)).tree.leaves =
      (Significant.seen 0 (placed xs).toList).take n := by
    rw [ofTokens, Tree.leaves_relabel, hleaves]
    exact map_tokenAt_range (placed xs) (hsize ▸ hn)
  refine ⟨?_, ?_, ?_⟩
  · rw [hrow]
    exact (Significant.sorted_seen _ 0).sublist (take_sublist n _)
  · intro i hi
    rw [hrow] at hi
    obtain ⟨-, t, ht, hseen⟩ := Significant.mem_seen (mem_of_mem_take hi)
    rw [Nat.sub_zero, Array.getElem?_toList] at ht
    have hlt : i < xs.length + 1 := by
      rw [← placed_size]
      exact (Array.getElem?_eq_some_iff.mp ht).1
    rcases Nat.lt_or_eq_of_le (Nat.le_of_lt_succ hlt) with hlt | rfl
    · rw [placed_getElem? hlt] at ht
      cases ht
      rw [Significant.isSeen, Bool.and_eq_true, Bool.not_eq_true'] at hseen
      exact ⟨xs[i], getElem?_eq_getElem hlt, hseen.1⟩
    · rw [placed_getElem?_end] at ht
      cases ht
      simp [Significant.isSeen] at hseen
  · refine Tree.every_relabel (fun k cs h => ?_) _ horderly
    unfold Tree.Orderly at h ⊢
    split
    · exact paired_relabelAll ⟨fun _ => rfl, hlast⟩ (by decide) (by decide) h
    · exact paired_relabelAll ⟨fun _ => rfl, hlast⟩ (by decide) (by decide) h
    · exact paired_relabelAll ⟨fun _ => rfl, hlast⟩ (by decide) (by decide) h
    · trivial

/-- Outside of error nodes, all nodes of a parsed source are `Formed`. -/
theorem ofTokens_formed (xs : List Lexeme) :
    (ofTokens (placed xs)).tree.Sound (Formed (kindOf (placed xs))) :=
  Tree.sound_relabel (fun _ _ h => formed_relabelAll ⟨fun _ => rfl, kindOf_last xs⟩ h) _
    (Grammar.parse_formed (symbols (placed xs) (Significant.ofTokens (placed xs))))

/-- `ofSource` parses a source if it can be read into lexemes. -/
theorem ofSource_eq_ok_iff {source : String} {parsed : Parsed} :
    ofSource source = .ok parsed ↔
      ∃ xs, Lexer.Lexes .markup xs source.toList ∧ parsed = ofTokens (placed xs) := by
  unfold ofSource
  constructor
  · intro h
    cases htokens : tokenize source with
    | error e => rw [htokens] at h; cases h
    | ok tokens =>
      rw [htokens] at h
      cases h
      obtain ⟨xs, hlexes, rfl⟩ := tokenizeIn_eq_ok_iff.mp htokens
      exact ⟨xs, hlexes, rfl⟩
  · rintro ⟨xs, hlexes, rfl⟩
    rw [show tokenize source = .ok (placed xs) from tokenizeIn_eq_ok_iff.mpr ⟨xs, hlexes, rfl⟩]
    rfl

end Parsed

end CodeLayout
