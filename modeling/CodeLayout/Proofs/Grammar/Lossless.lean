import CodeLayout.Proofs.Grammar.Positions
import CodeLayout.Proofs.Grammar.Termination
import CodeLayout.Proofs.Token.Sections

/-!
# Parsing loses nothing

The tree over a source has the significant tokens as its leaves, each of them once and in order, and
every node is as wide as its leaves together.  The trivia in front of the leaves, and at the end,
fills the places between them.
-/

namespace CodeLayout

open List

/-! ## Subtrees and their widths -/

namespace Tree

mutual

/-- The trees inside a tree, itself included. -/
def subtrees : Tree → List Tree
  | leaf i w => [leaf i w]
  | node k w cs => node k w cs :: subtreesAll cs

/-- The trees inside several trees. -/
def subtreesAll : List Tree → List Tree
  | [] => []
  | t :: ts => subtrees t ++ subtreesAll ts

end

/-- The joint size of several tokens. -/
def jointSize (size : Nat → Nat) : List Nat → Nat
  | [] => 0
  | i :: is => size i + jointSize size is

/-- The tree is as wide as its leaves together. -/
def Weighs (size : Nat → Nat) (t : Tree) : Prop := t.width = jointSize size t.leaves

variable {size : Nat → Nat}

theorem jointSize_append (is js : List Nat) :
    jointSize size (is ++ js) = jointSize size is + jointSize size js := by
  induction is with
  | nil => exact (Nat.zero_add _).symm
  | cons i is ih => rw [cons_append, jointSize, jointSize, ih, Nat.add_assoc]

variable {ts : List Tree} {u : Tree}

theorem totalWidth_eq (h : ∀ t ∈ ts, Weighs size t) :
    totalWidth ts = jointSize size (leavesAll ts) := by
  induction ts with
  | nil => rfl
  | cons t ts ih =>
    obtain ⟨ht, hts⟩ := forall_mem_cons.mp h
    rw [totalWidth, leavesAll_cons, jointSize_append, ih hts, ht]

theorem self_mem_subtrees (t : Tree) : t ∈ subtrees t := by
  cases t with
  | leaf i w => exact mem_singleton_self _
  | node k w cs => exact mem_cons_self

theorem mem_subtreesAll : u ∈ subtreesAll ts ↔ ∃ t ∈ ts, u ∈ subtrees t := by
  induction ts with
  | nil => simp [subtreesAll]
  | cons t ts ih => simp [subtreesAll, ih]

theorem mem_subtrees_node {k : NodeKind} {w : Nat} {cs : List Tree} :
    u ∈ subtrees (node k w cs) ↔ u = node k w cs ∨ ∃ t ∈ cs, u ∈ subtrees t := by
  rw [subtrees, mem_cons, mem_subtreesAll]

/-- A tree that lies `Inside` another one is among the trees inside it. -/
theorem Inside.mem_subtrees {n t : Tree} {before behind : List Nat} (h : Inside n t before behind) :
    n ∈ t.subtrees := by
  induction h with
  | here => exact self_mem_subtrees n
  | child _ ih => exact mem_subtrees_node.mpr (.inr ⟨_, by simp, ih⟩)

/-- What holds at `Every` inner node holds of every node inside. -/
theorem Every.of_mem_subtrees {P : NodeKind → List Tree → Prop} (t : Tree) (h : Every P t)
    (k : NodeKind) (w : Nat) (cs : List Tree) (hmem : node k w cs ∈ subtrees t) : P k cs := by
  induction t using Tree.induct with
  | leaf i w =>
    rw [subtrees, mem_singleton] at hmem
    cases hmem
  | node k' w' cs' ih =>
    rw [every_node] at h
    rcases mem_subtrees_node.mp hmem with heq | ⟨t, ht, hmem⟩
    · cases heq
      exact h.1
    · exact ih t ht (h.2 t ht) hmem

/-- `relabel` measures every tree inside anew. -/
theorem weighs_relabel {f : Nat → Nat × Nat} (hf : ∀ i, (f i).2 = size (f i).1) (t : Tree) :
    ∀ u ∈ subtrees (relabel f t), Weighs size u := by
  induction t using induct with
  | leaf i w =>
    intro u hu
    rw [relabel, subtrees, mem_singleton] at hu
    rw [hu, Weighs, leaves_leaf, width, hf]
    rfl
  | node k w cs ih =>
    intro u hu
    rw [relabel, branch, mem_subtrees_node] at hu
    rcases hu with rfl | ⟨t, ht, hu⟩
    · rw [Weighs, leaves_node, width]
      exact totalWidth_eq (forall_mem_relabelAll.mpr fun t ht => ih t ht _ (self_mem_subtrees _))
    · rw [relabelAll_eq_map] at ht
      obtain ⟨s, hs, rfl⟩ := mem_map.mp ht
      exact ih s hs u hu

end Tree

/-! ## Trivia and significant tokens -/

namespace Significant

/-- The trivia in front of each of the first `n` positions, and the token at it, in turn. -/
def front (s : Significant) (n : Nat) : List Nat :=
  (List.range n).flatMap fun position => s.trivia position ++ [s.indices.getD position 0]

/-- All trivia and all significant tokens in turn, up to the trivia at the end. -/
def enumerated (s : Significant) : List Nat := s.front s.indices.size ++ s.trivia s.indices.size

variable {s : Significant}

/-- What is added at the end does not matter for the `front`. -/
theorem front_congr {s' : Significant} {n : Nat}
    (h : ∀ i < n, s'.leading[i]? = s.leading[i]? ∧ s'.indices[i]? = s.indices[i]?) :
    s'.front n = s.front n := by
  unfold front
  rw [flatMap_def, flatMap_def]
  congr 1
  refine map_congr_left fun i hi => ?_
  obtain ⟨hleading, hindices⟩ := h i (mem_range.mp hi)
  simp only [trivia, Array.getD_eq_getD_getElem?, hleading, hindices]

theorem front_push (h : s.leading.size = s.indices.size) (i : Nat) (pending : List Nat) :
    front ⟨s.indices.push i, s.leading.push pending⟩ (s.indices.size + 1) =
      s.front s.indices.size ++ pending ++ [i] := by
  have hrest : front ⟨s.indices.push i, s.leading.push pending⟩ s.indices.size =
      s.front s.indices.size := by
    refine front_congr fun j hj => ⟨?_, ?_⟩
    · rw [Array.getElem?_push_lt (by omega), Array.getElem?_eq_getElem]
    · rw [Array.getElem?_push_lt hj, Array.getElem?_eq_getElem]
  have htrivia : trivia ⟨s.indices.push i, s.leading.push pending⟩ s.indices.size = pending := by
    rw [← h]
    simp [trivia]
  rw [front, range_succ, flatMap_append, ← front, hrest, flatMap_singleton, htrivia,
    append_assoc]
  simp

/-- `collect` sorts tokens, with the end behind them, and keeps every index. -/
theorem enumerated_collect {ts : List Token} {e : Token} (hts : ∀ t ∈ ts, t.kind ≠ .eof)
    (he : e.kind = .eof) (index : Nat) (pending : List Nat) {acc : Significant}
    (hacc : acc.leading.size = acc.indices.size) :
    (collect index pending acc (ts ++ [e])).enumerated =
      acc.front acc.indices.size ++ pending.reverse ++ List.range' index ts.length := by
  induction ts generalizing index pending acc with
  | nil =>
    -- the end takes the trivia that is left, and is no position of its own
    have htrivia : e.isTrivia = false := by rw [Token.isTrivia, he]; rfl
    rw [nil_append, collect, if_neg (by simp [htrivia]), if_pos (by simp [he]), collect,
      enumerated]
    have hfront : front { acc with leading := acc.leading.push pending.reverse }
        acc.indices.size = acc.front acc.indices.size := by
      refine front_congr fun j hj => ⟨?_, rfl⟩
      rw [Array.getElem?_push_lt (by omega), Array.getElem?_eq_getElem]
    rw [hfront]
    simp [trivia, ← hacc]
  | cons t ts ih =>
    obtain ⟨ht, hts⟩ := forall_mem_cons.mp hts
    rw [cons_append, collect, length_cons, range'_succ]
    split
    · -- trivia waits for the next token that is none
      rw [ih hts (index + 1) (index :: pending) hacc]
      simp
    · rw [if_neg (by simpa using ht), ih hts (index + 1) [] (by simp [hacc])]
      simp only [Array.size_push]
      rw [front_push hacc]
      simp

/-- `seen` selects from all indices. -/
theorem seen_eq_filter (ts : List Token) (index : Nat) :
    seen index ts =
      (List.range' index ts.length).filter fun i => isSeen (ts.getD (i - index) default) := by
  induction ts generalizing index with
  | nil => rfl
  | cons t ts ih =>
    -- behind the first token the count starts anew
    have hrest : (List.range' (index + 1) ts.length).filter
        (fun i => isSeen ((t :: ts).getD (i - index) default)) = seen (index + 1) ts := by
      rw [ih (index + 1)]
      refine filter_congr fun i hi => ?_
      have := (mem_range'_1.mp hi).1
      rw [show i - index = i - (index + 1) + 1 by omega, getD_cons_succ]
    rw [seen, length_cons, range'_succ, filter_cons, hrest, Nat.sub_self,
      getD_cons_zero]

theorem indices_eq_filter (tokens : Array Token) : (ofTokens tokens).indices.toList =
    (List.range tokens.size).filter fun i => isSeen (tokens.getD i default) := by
  rw [indices_ofTokens, seen_eq_filter, range_eq_range', Array.length_toList]
  simp [Array.getD_eq_getD_getElem?]

end Significant

namespace Parsed

/-- `ofTokens` answers a tree whose leaves are the significant tokens. -/
theorem leaves_ofTokens (tokens : Array Token) :
    (ofTokens tokens).tree.leaves = (Significant.ofTokens tokens).indices.toList := by
  have hsize : (symbols tokens (Significant.ofTokens tokens)).symbols.size =
      (Significant.ofTokens tokens).indices.size := by simp [symbols]
  rw [ofTokens, Tree.leaves_relabel, (Grammar.parse_complete _).1, hsize]
  show (List.range _).map (tokenAt tokens (Significant.ofTokens tokens)) = _
  rw [map_tokenAt_range tokens (Nat.le_refl _), Significant.indices_ofTokens,
    take_of_length_le]
  rw [← Significant.indices_ofTokens, Array.length_toList]

/-- The parse came to its end, and lost nothing: the leaves of the tree are the significant tokens,
together with the trivia these are all tokens but the end of the file, and every tree inside is as
wide as its leaves. -/
structure Lossless (p : Parsed) : Prop where
  /-- No bound ended the parse early. -/
  ended : (Grammar.parse (symbols p.tokens (Significant.ofTokens p.tokens))).cutShort = false
  /-- The significant tokens are those that are neither trivia nor the end of the file. -/
  significant : (Significant.ofTokens p.tokens).indices.toList =
    (List.range p.tokens.size).filter fun i => Significant.isSeen (p.tokens.getD i default)
  leaves : p.tree.leaves = (Significant.ofTokens p.tokens).indices.toList
  /-- Only the last token is the end of the file. -/
  last : ∀ i < p.tokens.size, (p.tokens.getD i default).kind = .eof ↔ i = p.tokens.size - 1
  enumerated : (Significant.ofTokens p.tokens).enumerated = List.range (p.tokens.size - 1)
  widths : ∀ t ∈ p.tree.subtrees, t.Weighs fun i => (p.tokens.getD i default).length

/-- A source that can be read into tokens is parsed to its end, however malformed it is, and nothing
is lost. -/
theorem ofSource_lossless {source : String} {parsed : Parsed} (h : ofSource source = .ok parsed) :
    parsed.Lossless := by
  obtain ⟨xs, hlexes, rfl⟩ := ofSource_eq_ok_iff.mp h
  refine ⟨(Grammar.parse_complete _).2, Significant.indices_eq_filter _, leaves_ofTokens _, ?_, ?_,
    ?_⟩
  · intro i hi
    show ((placed xs).getD i default).kind = .eof ↔ i = (placed xs).size - 1
    rw [Array.getD_eq_getD_getElem?, placed_size, Nat.add_sub_cancel]
    -- a token is a lexeme of the text, or the one behind them all
    rcases Nat.lt_or_eq_of_le (Nat.le_of_lt_succ (placed_size ▸ hi)) with hlt | rfl
    · rw [placed_getElem? hlt]
      exact ⟨fun hkind => absurd hkind (hlexes.kind_ne_eof _ (List.getElem_mem hlt)),
        fun heq => absurd heq hlt.ne⟩
    · rw [placed_getElem?_end]
      exact ⟨fun _ => rfl, fun _ => rfl⟩
  · show (Significant.ofTokens (placed xs)).enumerated = List.range ((placed xs).size - 1)
    have hkinds : ∀ t ∈ Lexer.place 0 xs, t.kind ≠ .eof := by
      intro t ht
      obtain ⟨x, hx, hkind, -⟩ := Lexer.mem_place ht
      rw [hkind]
      exact hlexes.kind_ne_eof x hx
    rw [Significant.ofTokens, toList_placed, Significant.enumerated_collect hkinds rfl 0 [] rfl,
      placed_size, Lexer.place_length, List.range_eq_range']
    rfl
  · exact Tree.weighs_relabel (fun _ => rfl) _

/-- A condition that breaks off, a call that is not closed, and markup behind it. -/
theorem ofSource_lossless_malformed : ∃ parsed,
    ofSource "<?php if (1 +) /* a */ foo([$a ?>\n<p>" = .ok parsed ∧ parsed.errors ≠ [] ∧
      parsed.Lossless := by
  have hparsed : (ofSource "<?php if (1 +) /* a */ foo([$a ?>\n<p>").toOption.any
      (fun p => !p.errors.isEmpty) = true := by decide +kernel
  obtain ⟨parsed, h, hparsed⟩ := exists_ok_of_any hparsed
  refine ⟨parsed, h, ?_, ofSource_lossless h⟩
  simpa using hparsed

end Parsed

end CodeLayout
