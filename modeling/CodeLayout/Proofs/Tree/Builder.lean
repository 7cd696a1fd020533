import CodeLayout.Proofs.Grammar.Lossless
import Mathlib.Algebra.GroupWithZero.Nat

/-!
# Building keeps the leaves

The leaves of the open nodes, from the outermost to the innermost, are the tokens that were added, in
their order: opening a node, at a marker or not, moves children from one node to the next one, and
closing a node moves them back, one level down.  Every inner node is as wide as its leaves together.

The markers are arbitrary: nothing is asked of the operations or of their order
(`ofOps_keeps_leaves`).
-/

namespace CodeLayout.Tree

open List

mutual

/-- The leaves of a tree, with their widths. -/
def tokens : Tree → List (Nat × Nat)
  | leaf i w => [(i, w)]
  | node _ _ cs => tokensAll cs

/-- The leaves of several trees, with their widths. -/
def tokensAll : List Tree → List (Nat × Nat)
  | [] => []
  | t :: ts => tokens t ++ tokensAll ts

end

theorem tokens_branch (k : NodeKind) (cs : List Tree) : tokens (branch k cs) = tokensAll cs := by
  rw [branch, tokens]

theorem tokensAll_append (ts us : List Tree) :
    tokensAll (ts ++ us) = tokensAll ts ++ tokensAll us := by
  induction ts with
  | nil => rfl
  | cons t ts ih => rw [cons_append, tokensAll, tokensAll, ih, append_assoc]

/-- Every tree inside is as wide as its leaves together. -/
def Weighed (t : Tree) : Prop := ∀ u ∈ t.subtrees, u.width = (u.tokens.map Prod.snd).sum

theorem weighed_leaf (i w : Nat) : Weighed (leaf i w) := by
  intro u hu
  rw [subtrees, mem_singleton] at hu
  rw [hu, tokens]
  exact (Nat.add_zero w).symm

theorem Weighed.branch {k : NodeKind} {cs : List Tree} (h : ∀ t ∈ cs, Weighed t) :
    Weighed (branch k cs) := by
  intro u hu
  rcases mem_subtrees_node.mp hu with rfl | ⟨t, ht, hu⟩
  · rw [tokens]
    clear hu
    induction cs with
    | nil => rfl
    | cons t ts ih =>
      obtain ⟨ht, hts⟩ := forall_mem_cons.mp h
      rw [tokensAll, map_append, sum_append, ← ih hts, ← ht t (self_mem_subtrees t)]
      rfl
  · exact h t ht u hu

namespace Builder

/-! ## The leaves of the open nodes -/

/-- The leaves of open nodes, from the outermost to the innermost. -/
def openTokens : List Frame → List (Nat × Nat)
  | [] => []
  | f :: frames => openTokens frames ++ tokensAll f.children.toList

variable {b : Builder} {frames : List Frame}

theorem openTokens_attach (t : Tree) (h : frames ≠ []) :
    openTokens (attach frames t) = openTokens frames ++ t.tokens := by
  cases frames with
  | nil => exact absurd rfl h
  | cons f frames =>
    rw [attach, openTokens, openTokens, Array.toList_push, tokensAll_append, append_assoc]
    simp only [tokensAll, append_nil]

theorem openTokens_start (kind : NodeKind) : openTokens (b.start kind).frames = openTokens b.frames :=
  append_nil _

/-- `startAt` keeps the children behind a marker behind those in front of it, wherever it points. -/
theorem openTokens_startAt (marker : Nat) (kind : NodeKind) :
    openTokens (b.startAt marker kind).frames = openTokens b.frames := by
  unfold startAt
  split
  · exact openTokens_start kind
  · next f frames hframes =>
    have hchildren : (f.children.extract 0 marker).toList ++
        (f.children.extract marker f.children.size).toList = f.children.toList := by
      rw [Array.toList_extract, Array.toList_extract, extract_eq_take_drop, extract_eq_take_drop,
        drop_zero, Nat.sub_zero, take_of_length_le (l := drop _ _) (by simp), take_append_drop]
    rw [hframes, openTokens, openTokens, openTokens, append_assoc, ← tokensAll_append, hchildren]

/-- `finish` answers the last open node, with its leaves, and attaches it to the one around it. -/
theorem finish_eq_some {b' : Builder} {t : Tree} (h : b.finish = (b', some t)) :
    ∃ f rest, b.frames = f :: rest ∧ t = branch f.kind f.children.toList ∧
      b'.frames = attach rest t := by
  unfold finish at h
  split at h
  · cases h
  · next f rest hframes =>
    cases h
    exact ⟨f, rest, hframes, rfl, rfl⟩

/-! ## Sequences of operations -/

/-- What may be done with a builder. -/
inductive Op where
  | start (kind : NodeKind)
  | startAt (marker : Nat) (kind : NodeKind)
  | token (index width : Nat)
  | finish
deriving DecidableEq, Repr

def step (b : Builder) : Op → Builder
  | .start kind => b.start kind
  | .startAt marker kind => b.startAt marker kind
  | .token index width => b.token index width
  | .finish => b.finish.1

/-- The builder after operations, from no open node on. -/
def ofOps (ops : List Op) : Builder := ops.foldl step {}

/-- The children of the open nodes are as wide as their leaves together. -/
def AllWeighed (frames : List Frame) : Prop := ∀ f ∈ frames, ∀ t ∈ f.children.toList, Weighed t

theorem AllWeighed.attach {t : Tree} (h : AllWeighed frames) (ht : Weighed t) :
    AllWeighed (attach frames t) := by
  cases frames with
  | nil => exact h
  | cons f frames =>
    obtain ⟨hf, hrest⟩ := forall_mem_cons.mp h
    refine forall_mem_cons.mpr ⟨?_, hrest⟩
    rw [Array.toList_push]
    exact forall_mem_append.mpr ⟨hf, forall_mem_singleton.mpr ht⟩

theorem AllWeighed.step (h : AllWeighed b.frames) (op : Op) : AllWeighed (b.step op).frames := by
  cases op with
  | start kind => exact forall_mem_cons.mpr ⟨nofun, h⟩
  | startAt marker kind =>
    show AllWeighed (b.startAt marker kind).frames
    unfold startAt
    split
    · exact forall_mem_cons.mpr ⟨nofun, h⟩
    · next f frames hframes =>
      rw [hframes] at h
      obtain ⟨hf, hrest⟩ := forall_mem_cons.mp h
      refine forall_mem_cons.mpr ⟨fun t ht => hf t ?_, forall_mem_cons.mpr ⟨fun t ht => hf t ?_, hrest⟩⟩
      · rw [Array.toList_extract, extract_eq_take_drop] at ht
        exact mem_of_mem_drop (mem_of_mem_take ht)
      · rw [Array.toList_extract, extract_eq_take_drop] at ht
        exact mem_of_mem_drop (mem_of_mem_take ht)
  | token index width => exact h.attach (weighed_leaf index width)
  | finish =>
    show AllWeighed b.finish.1.frames
    unfold finish
    split
    · exact h
    · next f frames hframes =>
      rw [hframes] at h
      obtain ⟨hf, hrest⟩ := forall_mem_cons.mp h
      exact AllWeighed.attach hrest (.branch hf)

theorem allWeighed_ofOps (ops : List Op) : AllWeighed (ofOps ops).frames := by
  induction ops using reverseRecOn with
  | nil => exact nofun
  | append_singleton ops op ih =>
    rw [ofOps, foldl_append]
    exact ih.step op

/-- Whatever was done before, no operation changes `openTokens` but a token, which comes last, and
`finish` of the last open node, which takes them all; and every inner node is as wide as its leaves
together. -/
theorem ofOps_keeps_leaves (ops : List Op) :
    (∀ kind, openTokens ((ofOps ops).start kind).frames = openTokens (ofOps ops).frames) ∧
    (∀ marker kind,
      openTokens ((ofOps ops).startAt marker kind).frames = openTokens (ofOps ops).frames) ∧
    (∀ index width, (ofOps ops).frames ≠ [] →
      openTokens ((ofOps ops).token index width).frames =
        openTokens (ofOps ops).frames ++ [(index, width)]) ∧
    (∀ b t, (ofOps ops).finish = (b, some t) → Weighed t ∧
      if b.frames = [] then t.tokens = openTokens (ofOps ops).frames
      else openTokens b.frames = openTokens (ofOps ops).frames) ∧
    ((ofOps ops).finish.2 = none ↔ (ofOps ops).frames = []) ∧
    ∀ f ∈ (ofOps ops).frames, ∀ t ∈ f.children.toList, Weighed t := by
  have hall := allWeighed_ofOps ops
  refine ⟨openTokens_start, openTokens_startAt, fun index width h => ?_, fun b t hfinish => ?_, ?_,
    hall⟩
  · rw [token, openTokens_attach _ h, tokens]
  · obtain ⟨f, rest, hframes, rfl, hb⟩ := finish_eq_some hfinish
    rw [hframes] at hall ⊢
    refine ⟨.branch (forall_mem_cons.mp hall).1, ?_⟩
    rw [hb, openTokens]
    cases rest with
    | nil => exact tokens_branch _ _
    | cons g rest =>
      rw [if_neg (by simp [attach]), openTokens_attach _ (cons_ne_nil g rest), tokens_branch]
  · unfold finish
    split <;> simp_all

/-- A marker far behind the last child takes over none, and one in front of all takes over all. -/
theorem ofOps_keeps_leaves_wrapped :
    ∃ b t, (ofOps [.start .program, .token 0 3, .startAt 9 .block, .token 1 2, .finish,
      .startAt 0 .exprStmt, .finish]).finish = (b, some t) ∧ t.tokens = [(0, 3), (1, 2)] := by
  refine ⟨_, _, rfl, ?_⟩
  have hkeeps := (ofOps_keeps_leaves [.start .program, .token 0 3, .startAt 9 .block, .token 1 2,
    .finish, .startAt 0 .exprStmt, .finish]).2.2.2.1 _ _ rfl
  exact hkeeps.2

end Builder

end CodeLayout.Tree
