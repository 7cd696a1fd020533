import CodeLayout.Proofs.Grammar.Lossless
import CodeLayout.Tree.Outline

/-!
# The outline of a parsed source

A tree knows neither where its nodes stand nor what is around them.  The outline adds both: it
numbers the inner nodes, and lists each with the number of the node around it and the first and the
last token that it covers.

The number of a node is its place among all inner nodes, taken in the order of the outline
(`inner`).  Facts about a number are proved along the path that leads to it (`Nth`).  Where the leaves
of a tree grow from left to right, a node covers exactly the leaves between its first and its last
one.
-/

namespace CodeLayout

open List

namespace Tree

/-! ## Numbers -/

/-- The inner nodes of a tree, in the order of their numbers. -/
def inner (t : Tree) : List Tree := t.subtrees.filter isNode

/-- The inner nodes of several trees. -/
def innerAll (ts : List Tree) : List Tree := (subtreesAll ts).filter isNode

@[simp] theorem inner_leaf (i w : Nat) : inner (leaf i w) = [] := by
  rw [inner, subtrees]
  rfl

@[simp] theorem inner_node (k : NodeKind) (w : Nat) (cs : List Tree) :
    inner (node k w cs) = node k w cs :: innerAll cs := by
  rw [inner, subtrees, filter_cons_of_pos rfl]
  rfl

@[simp] theorem innerAll_nil : innerAll [] = [] := by
  rw [innerAll, subtreesAll]
  rfl

@[simp] theorem innerAll_cons (t : Tree) (ts : List Tree) :
    innerAll (t :: ts) = inner t ++ innerAll ts := by
  rw [innerAll, subtreesAll, filter_append]
  rfl

@[simp] theorem innerAll_append (ts us : List Tree) :
    innerAll (ts ++ us) = innerAll ts ++ innerAll us := by
  induction ts with
  | nil => simp
  | cons t ts ih => simp [ih]

mutual

theorem length_inner : (t : Tree) → t.inner.length = t.nodeCount
  | leaf i w => by rw [inner_leaf, nodeCount, length_nil]
  | node k w cs => by rw [inner_node, nodeCount, length_cons, length_innerAll cs]

theorem length_innerAll : (ts : List Tree) → (innerAll ts).length = nodeCountAll ts
  | [] => by rw [innerAll_nil, nodeCountAll, length_nil]
  | t :: ts => by
    rw [innerAll_cons, nodeCountAll, length_append, length_inner t, length_innerAll ts]

end

/-- The path to the inner node with a number: the nodes around it, and inside each of them the
children that stand before the next one. -/
inductive Nth (s : Tree) : Nat → Tree → Prop
  | here {k : NodeKind} {w : Nat} {cs : List Tree} : s = node k w cs → Nth s 0 s
  | child {k : NodeKind} {w q : Nat} {us vs : List Tree} {c : Tree} :
      Nth s q c → Nth s (nodeCountAll us + q + 1) (node k w (us ++ c :: vs))

namespace Nth

variable {s c t : Tree} {q m : Nat}

theorem exists_eq_node (h : Nth s q t) : ∃ k w cs, s = node k w cs := by
  induction h with
  | here hs => exact ⟨_, _, _, hs⟩
  | child _ ih => exact ih

theorem trans (hc : Nth c m s) (hs : Nth s q t) : Nth c (q + m) t := by
  induction hs with
  | here => rwa [Nat.zero_add]
  | @child k w q us vs d _ ih =>
    have hnumber : nodeCountAll us + q + 1 + m = nodeCountAll us + (q + m) + 1 := by omega
    rw [hnumber]
    exact .child ih

/-- The number of a child counts the nodes inside the children before it. -/
theorem ofChild {k : NodeKind} {w : Nat} {us vs : List Tree}
    (h : Nth (node k w (us ++ c :: vs)) q t) (hc : c.isNode = true) :
    Nth c (q + 1 + nodeCountAll us) t := by
  have hhere : Nth c 0 c := by
    cases c with
    | leaf i w => cases hc
    | node k w cs => exact .here rfl
  have hstep : Nth c (nodeCountAll us + 0 + 1) (node k w (us ++ c :: vs)) := .child hhere
  have htrans := hstep.trans h
  rwa [Nat.add_zero, Nat.add_comm _ 1, ← Nat.add_assoc] at htrans

/-- A node is the root, or a child of another one. -/
theorem parent (h : Nth s m t) : m = 0 ∧ s = t ∨
    ∃ q k w us vs, Nth (node k w (us ++ s :: vs)) q t ∧ m = q + 1 + nodeCountAll us := by
  induction h with
  | here => exact .inl ⟨rfl, rfl⟩
  | @child k w q us vs c _ ih =>
    right
    rcases ih with ⟨rfl, rfl⟩ | ⟨q', k', w', us', vs', hparent, rfl⟩
    · exact ⟨0, k, w, us, vs, .here rfl, by omega⟩
    · exact ⟨_, k', w', us', vs', .child hparent, by omega⟩

theorem inner_getElem? (h : Nth s q t) : t.inner[q]? = some s := by
  induction h with
  | here hs =>
    subst hs
    rw [inner_node]
    rfl
  | @child k w q us vs c _ ih =>
    rw [inner_node, getElem?_cons_succ, innerAll_append, innerAll_cons,
      getElem?_append_right (by rw [length_innerAll]; omega), length_innerAll,
      Nat.add_sub_cancel_left,
      List.getElem?_append_left (List.getElem?_eq_some_iff.mp ih).1, ih]

end Nth

mutual

theorem nth_of_inner_getElem? : (t : Tree) → ∀ q s, t.inner[q]? = some s → Nth s q t
  | leaf i w => by
    intro q s h
    simp at h
  | node k w cs => by
    intro q s h
    rw [inner_node] at h
    cases q with
    | zero =>
      rw [getElem?_cons_zero] at h
      cases h
      exact .here rfl
    | succ q =>
      rw [getElem?_cons_succ] at h
      obtain ⟨us, c, vs, q', rfl, hpath, rfl⟩ := nth_of_innerAll_getElem? cs q s h
      exact .child hpath

theorem nth_of_innerAll_getElem? : (ts : List Tree) → ∀ q s, (innerAll ts)[q]? = some s →
    ∃ us c vs q', ts = us ++ c :: vs ∧ Nth s q' c ∧ q = nodeCountAll us + q'
  | [] => by
    intro q s h
    simp at h
  | t :: ts => by
    intro q s h
    rw [innerAll_cons] at h
    by_cases hlt : q < t.inner.length
    · rw [List.getElem?_append_left hlt] at h
      exact ⟨[], t, ts, q, rfl, nth_of_inner_getElem? t q s h, by rw [nodeCountAll, Nat.zero_add]⟩
    · have hle := Nat.le_of_not_lt hlt
      rw [getElem?_append_right hle] at h
      obtain ⟨us, c, vs, q', rfl, hpath, hq⟩ := nth_of_innerAll_getElem? ts _ s h
      rw [length_inner] at hle hq
      exact ⟨t :: us, c, vs, q', rfl, hpath, by rw [nodeCountAll]; omega⟩

end

variable {t s : Tree} {q w i : Nat} {k : NodeKind} {cs : List Tree}

/-- The number of a node in `inner`, and the path to it. -/
theorem inner_getElem?_iff : t.inner[q]? = some s ↔ Nth s q t :=
  ⟨nth_of_inner_getElem? t q s, Nth.inner_getElem?⟩

/-! ## Entries of an outline -/

mutual

theorem length_outlineFrom (number : Nat) (parent : Option Nat) :
    (t : Tree) → (outlineFrom number parent t).length = t.nodeCount
  | leaf i w => by rw [outlineFrom, nodeCount, length_nil]
  | node k w cs => by
    rw [outlineFrom, nodeCount, length_cons, length_outlineAll (number + 1) number cs]

theorem length_outlineAll (number parent : Nat) :
    (ts : List Tree) → (outlineAll number parent ts).length = nodeCountAll ts
  | [] => by rw [outlineAll, nodeCountAll, length_nil]
  | t :: ts => by
    rw [outlineAll, nodeCountAll, length_append, length_outlineFrom number (some parent) t,
      length_outlineAll (number + t.nodeCount) parent ts]

end

theorem outlineAll_append (number parent : Nat) (ts us : List Tree) :
    outlineAll number parent (ts ++ us) =
      outlineAll number parent ts ++ outlineAll (number + nodeCountAll ts) parent us := by
  induction ts generalizing number with
  | nil => simp [outlineAll, nodeCountAll]
  | cons t ts ih => simp [outlineAll, nodeCountAll, ih, Nat.add_assoc]

/-- `outlineFrom` of a tree goes on with that of any node inside, behind the entries in front of it.
-/
theorem Nth.outlineFrom_eq (h : Nth s q t) (number : Nat) (parent : Option Nat) :
    ∃ front around back,
      outlineFrom number parent t = front ++ (outlineFrom (number + q) around s ++ back) ∧
        front.length = q := by
  induction h generalizing number parent with
  | here => exact ⟨[], parent, [], by simp, rfl⟩
  | @child k w q us vs c _ ih =>
    obtain ⟨front, around, back, heq, hlength⟩ :=
      ih (number + 1 + nodeCountAll us) (some number)
    have hnumber : number + (nodeCountAll us + q + 1) = number + 1 + nodeCountAll us + q := by
      omega
    refine ⟨⟨k, parent, range? (node k w (us ++ c :: vs)), w⟩ ::
      outlineAll (number + 1) number us ++ front, around, 
      back ++ outlineAll (number + 1 + nodeCountAll us + c.nodeCount) number vs, ?_, ?_⟩
    · rw [outlineFrom, outlineAll_append, outlineAll, heq, hnumber]
      simp
    · simp [length_outlineAll, hlength]

/-- `outline` lists every node by its number, with its kind, its tokens and its width. -/
theorem Nth.outline_getElem? (h : Nth (node k w cs) q t) :
    ∃ parent, (outline t)[q]? = some ⟨k, parent, range? (node k w cs), w⟩ := by
  obtain ⟨front, around, back, heq, hlength⟩ := h.outlineFrom_eq 0 none
  refine ⟨around, ?_⟩
  rw [outline, heq, outlineFrom, getElem?_append_right hlength.le, hlength, Nat.sub_self]
  rfl

/-- `outline` names in the entry of a child the node that it is a child of. -/
theorem Nth.outline_parent {us vs : List Tree} {c : Tree} (h : Nth (node k w (us ++ c :: vs)) q t)
    (hc : c.isNode = true) :
    (outline t)[q + 1 + nodeCountAll us]?.bind OutlineNode.parent = some q := by
  obtain ⟨front, around, back, heq, hlength⟩ := h.outlineFrom_eq 0 none
  cases c with
  | leaf i w => cases hc
  | node k' w' cs =>
    have hplace : q + 1 + nodeCountAll us = front.length + (nodeCountAll us + 1) := by omega
    have hskip (rest : List OutlineNode) :
        (outlineAll (0 + q + 1) (0 + q) us ++ rest)[nodeCountAll us]? = rest[0]? := by
      rw [getElem?_append_right (by rw [length_outlineAll]), length_outlineAll, Nat.sub_self]
    rw [outline, heq, hplace, getElem?_append_right (Nat.le_add_right _ _),
      Nat.add_sub_cancel_left, outlineFrom, cons_append, getElem?_cons_succ,
      outlineAll_append, append_assoc, hskip, outlineAll, outlineFrom, Nat.zero_add]
    rfl

/-- Among numbered nodes, the second one is a child of the first. -/
def IsChild (nodes : List Tree) (q m : Nat) : Prop :=
  ∃ k w us c vs, nodes[q]? = some (node k w (us ++ c :: vs)) ∧ nodes[m]? = some c ∧
    m = q + 1 + nodeCountAll us

/-- `outline` names one node as the one around another exactly if the other one is its child. -/
theorem outline_parent_iff {m : Nat} :
    (outline t)[m]?.bind OutlineNode.parent = some q ↔ IsChild t.inner q m := by
  have hchild {q m : Nat} (h : IsChild t.inner q m) :
      (outline t)[m]?.bind OutlineNode.parent = some q := by
    obtain ⟨k, w, us, c, vs, hparent, hc, rfl⟩ := h
    obtain ⟨_, _, _, rfl⟩ := (inner_getElem?_iff.mp hc).exists_eq_node
    exact (inner_getElem?_iff.mp hparent).outline_parent rfl
  refine ⟨fun h => ?_, hchild⟩
  -- the entry is that of a node, which is a child of the node that the entry then names
  have hlt : m < t.inner.length := by
    obtain ⟨o, ho, -⟩ := Option.bind_eq_some_iff.mp h
    have := (List.getElem?_eq_some_iff.mp ho).1
    rwa [outline, length_outlineFrom, ← length_inner] at this
  have hget := List.getElem?_eq_getElem hlt
  rcases (inner_getElem?_iff.mp hget).parent with ⟨rfl, hroot⟩ | ⟨q', k, w, us, vs, hparent, hm⟩
  · rw [outline] at h
    cases t with
    | leaf i w =>
      rw [outlineFrom] at h
      cases h
    | node k w cs =>
      rw [outlineFrom] at h
      cases h
  · have hfound : IsChild t.inner q' m :=
      ⟨k, w, us, _, vs, inner_getElem?_iff.mpr hparent, hget, hm⟩
    have heq := hchild hfound
    rw [h] at heq
    cases heq
    exact hfound

/-! ## Owners -/

theorem ownersAll_append (number parent : Nat) (ts us : List Tree) :
    ownersAll number parent (ts ++ us) =
      ownersAll number parent ts ++ ownersAll (number + nodeCountAll ts) parent us := by
  induction ts generalizing number with
  | nil => simp [ownersAll, nodeCountAll]
  | cons t ts ih =>
    cases t with
    | leaf i w => simp [ownersAll, nodeCountAll, nodeCount, ih]
    | node k w cs => simp [ownersAll, nodeCountAll, ih, Nat.add_assoc]

/-- `ownersFrom` a child, whose number is known, is among the owners inside the node. -/
theorem ownersFrom_subset_ownersAll (number parent : Nat) (c : Tree) (vs : List Tree) :
    ownersFrom number c ⊆ ownersAll number parent (c :: vs) := by
  cases c with
  | leaf i w =>
    rw [ownersFrom]
    exact nil_subset _
  | node k w cs =>
    rw [ownersAll]
    exact subset_append_left _ _

theorem mem_ownersAll_of_leaf {number parent : Nat} {ts : List Tree} (h : leaf i w ∈ ts) :
    (i, parent) ∈ ownersAll number parent ts := by
  obtain ⟨us, vs, rfl⟩ := append_of_mem h
  rw [ownersAll_append, ownersAll]
  simp

/-- `ownersFrom` has the leaves among the children of a node. -/
theorem Nth.mem_ownersFrom (h : Nth s q t) (hi : leaf i w ∈ s.children) (number : Nat) :
    (i, number + q) ∈ ownersFrom number t := by
  induction h generalizing number with
  | here hs =>
    subst hs
    rw [ownersFrom, Nat.add_zero]
    exact mem_ownersAll_of_leaf hi
  | @child k w q us vs c _ ih =>
    have hmem := ih (number + 1 + nodeCountAll us)
    have hnumber : number + (nodeCountAll us + q + 1) = number + 1 + nodeCountAll us + q := by
      omega
    rw [ownersFrom, ownersAll_append, hnumber]
    exact mem_append_right _ (ownersFrom_subset_ownersAll _ number c vs hmem)

mutual

theorem exists_nth_of_mem_ownersFrom : (t : Tree) → ∀ number i a, (i, a) ∈ ownersFrom number t →
    ∃ q s w, a = number + q ∧ Nth s q t ∧ leaf i w ∈ s.children
  | leaf i w => by
    intro number j a h
    rw [ownersFrom] at h
    cases h
  | node k w cs => by
    intro number i a h
    rw [ownersFrom] at h
    rcases exists_nth_of_mem_ownersAll cs _ _ _ _ h with
      ⟨rfl, v, hv⟩ | ⟨us, c, vs, q, s, v, rfl, rfl, hs, hv⟩
    · exact ⟨0, _, v, rfl, .here rfl, hv⟩
    · exact ⟨_, s, v, by omega, .child hs, hv⟩

theorem exists_nth_of_mem_ownersAll : (ts : List Tree) → ∀ number parent i a,
    (i, a) ∈ ownersAll number parent ts →
      (a = parent ∧ ∃ w, leaf i w ∈ ts) ∨ ∃ us c vs q s w, ts = us ++ c :: vs ∧
        a = number + nodeCountAll us + q ∧ Nth s q c ∧ leaf i w ∈ s.children
  | [] => by
    intro number parent i a h
    rw [ownersAll] at h
    cases h
  | leaf j v :: ts => by
    intro number parent i a h
    rw [ownersAll] at h
    rcases mem_cons.mp h with heq | h
    · cases heq
      exact .inl ⟨rfl, v, mem_cons_self⟩
    · rcases exists_nth_of_mem_ownersAll ts _ _ _ _ h with
        ⟨rfl, w, hw⟩ | ⟨us, c, vs, q, s, w, rfl, rfl, hs, hw⟩
      · exact .inl ⟨rfl, w, mem_cons_of_mem _ hw⟩
      · refine .inr ⟨leaf j v :: us, c, vs, q, s, w, rfl, ?_, hs, hw⟩
        rw [nodeCountAll, nodeCount]
        omega
  | node k v cs :: ts => by
    intro number parent i a h
    rw [ownersAll] at h
    rcases mem_append.mp h with h | h
    · obtain ⟨q, s, w, rfl, hs, hw⟩ := exists_nth_of_mem_ownersFrom (node k v cs) _ _ _ h
      exact .inr ⟨[], _, ts, q, s, w, rfl, by rw [nodeCountAll]; omega, hs, hw⟩
    · rcases exists_nth_of_mem_ownersAll ts _ _ _ _ h with
        ⟨rfl, w, hw⟩ | ⟨us, c, vs, q, s, w, rfl, rfl, hs, hw⟩
      · exact .inl ⟨rfl, w, mem_cons_of_mem _ hw⟩
      · refine .inr ⟨node k v cs :: us, c, vs, q, s, w, rfl, ?_, hs, hw⟩
        rw [nodeCountAll]
        omega

end

mutual

/-- `ownersFrom` has every leaf inside a node. -/
theorem map_fst_ownersFrom (number : Nat) : (k : NodeKind) → (w : Nat) → (cs : List Tree) →
    (ownersFrom number (node k w cs)).map Prod.fst = leavesAll cs
  | k, w, cs => by rw [ownersFrom, map_fst_ownersAll (number + 1) number cs]

theorem map_fst_ownersAll (number parent : Nat) : (ts : List Tree) →
    (ownersAll number parent ts).map Prod.fst = leavesAll ts
  | [] => by rw [ownersAll, leavesAll_nil, map_nil]
  | leaf i w :: ts => by
    rw [ownersAll, leavesAll_cons, map_cons, map_fst_ownersAll number parent ts, leaves_leaf]
    rfl
  | node k w cs :: ts => by
    rw [ownersAll, leavesAll_cons, map_append, map_fst_ownersFrom number k w cs,
      map_fst_ownersAll _ parent ts, leaves_node]

end

/-- `owner?` of a token is the node that has it as a child, where no token is a leaf twice. -/
theorem owner?_eq_some_iff (hnodup : (leavesAll cs).Nodup) : owner? (node k w cs) i = some q ↔
      ∃ s v, (inner (node k w cs))[q]? = some s ∧ leaf i v ∈ s.children := by
  have hmem : (i, q) ∈ ownersFrom 0 (node k w cs) ↔
      ∃ s v, (inner (node k w cs))[q]? = some s ∧ leaf i v ∈ s.children := by
    constructor
    · intro h
      obtain ⟨q', s, v, rfl, hs, hv⟩ := exists_nth_of_mem_ownersFrom _ _ _ _ h
      exact ⟨s, v, by rw [Nat.zero_add]; exact hs.inner_getElem?, hv⟩
    · rintro ⟨s, v, hs, hv⟩
      have := (inner_getElem?_iff.mp hs).mem_ownersFrom hv 0
      rwa [Nat.zero_add] at this
  rw [← hmem, owner?, lookup_eq_some_iff]
  constructor
  · rintro ⟨front, back, heq, -⟩
    rw [heq]
    simp
  · intro h
    obtain ⟨front, back, heq⟩ := append_of_mem h
    refine ⟨front, back, heq, fun r hr => ?_⟩
    -- the token has no entry before this one
    rw [← map_fst_ownersFrom 0 k w cs, heq, map_append, map_cons] at hnodup
    have hne := (nodup_append.mp hnodup).2.2 r.1 (mem_map_of_mem hr) i (by simp)
    simpa using Ne.symm hne

theorem owner?_isSome_iff : (owner? (node k w cs) i).isSome = true ↔ i ∈ leavesAll cs := by
  rw [← map_fst_ownersFrom 0 k w cs, owner?, lookup_isSome_iff, mem_map]
  simp

/-! ## Ranges -/

theorem range?_eq_some_iff {a b : Nat} :
    t.range? = some (a, b) ↔ t.leaves.head? = some a ∧ t.leaves.getLast? = some b := by
  rw [range?, first?_eq_head?, last?_eq_getLast?]
  cases t.leaves.head? <;> cases t.leaves.getLast? <;> simp

theorem range?_isSome_iff : t.range?.isSome = true ↔ t.leaves ≠ [] := by
  constructor
  · intro h hnil
    obtain ⟨⟨a, b⟩, hr⟩ := Option.isSome_iff_exists.mp h
    obtain ⟨hhead, -⟩ := range?_eq_some_iff.mp hr
    rw [hnil] at hhead
    cases hhead
  · intro hne
    have hr : t.range? = some (t.leaves.head hne, t.leaves.getLast hne) :=
      range?_eq_some_iff.mpr ⟨head?_eq_some_head hne, getLast?_eq_some_getLast hne⟩
    rw [hr]
    rfl

theorem exists_inside (t : Tree) (h : s ∈ t.subtrees) :
    ∃ before behind, Inside s t before behind := by
  induction t using induct with
  | leaf i w =>
    rw [subtrees, mem_singleton] at h
    exact ⟨[], [], h ▸ .here⟩
  | node k w cs ih =>
    rcases mem_subtrees_node.mp h with rfl | ⟨t, ht, hs⟩
    · exact ⟨[], [], .here⟩
    · obtain ⟨before, behind, hinside⟩ := ih t ht hs
      obtain ⟨us, vs, rfl⟩ := append_of_mem ht
      exact ⟨_, _, .child hinside⟩

section Sorted

variable {t : Tree} {a b : Nat}

/-- Leaves that grow stand between the ends of the `range?`. -/
theorem mem_leaves_bounds (hsorted : t.leaves.Pairwise (· < ·)) (hrange : t.range? = some (a, b)) :
    ∀ i ∈ t.leaves, a ≤ i ∧ i ≤ b := by
  obtain ⟨hhead, hlast⟩ := range?_eq_some_iff.mp hrange
  intro i hi
  constructor
  · obtain ⟨rest, heq⟩ := head?_eq_some_iff.mp hhead
    rw [heq] at hsorted hi
    rcases mem_cons.mp hi with rfl | hi
    · exact Nat.le_refl _
    · exact Nat.le_of_lt ((pairwise_cons.mp hsorted).1 i hi)
  · obtain ⟨front, heq⟩ := getLast?_eq_some_iff.mp hlast
    rw [heq] at hsorted hi
    rcases mem_append.mp hi with hi | hi
    · exact Nat.le_of_lt ((pairwise_append.mp hsorted).2.2 i hi b (by simp))
    · rw [mem_singleton.mp hi]

theorem range?_mem (hrange : t.range? = some (a, b)) : a ∈ t.leaves ∧ b ∈ t.leaves := by
  obtain ⟨hhead, hlast⟩ := range?_eq_some_iff.mp hrange
  exact ⟨mem_of_mem_head? hhead, mem_of_getLast? hlast⟩

variable {s : Tree} {cs : List Tree}

theorem sorted_of_mem_subtrees (hsorted : t.leaves.Pairwise (· < ·)) (hs : s ∈ t.subtrees) :
    s.leaves.Pairwise (· < ·) := by
  obtain ⟨before, behind, hinside⟩ := exists_inside t hs
  rw [hinside.leaves_eq, append_assoc] at hsorted
  exact (pairwise_append.mp (pairwise_append.mp hsorted).2.1).1

/-- A tree inside covers exactly the leaves between the ends of its `range?`. -/
theorem leaves_eq_filter (hsorted : t.leaves.Pairwise (· < ·)) (hs : s ∈ t.subtrees)
    (hrange : s.range? = some (a, b)) : s.leaves = t.leaves.filter fun i => a ≤ i && i ≤ b := by
  have hbounds := mem_leaves_bounds (sorted_of_mem_subtrees hsorted hs) hrange
  obtain ⟨ha, hb⟩ := range?_mem hrange
  obtain ⟨before, behind, hinside⟩ := exists_inside t hs
  rw [hinside.leaves_eq, append_assoc, pairwise_append] at hsorted
  obtain ⟨-, hrest, hbefore⟩ := hsorted
  obtain ⟨-, -, hbehind⟩ := pairwise_append.mp hrest
  have hfront : before.filter (fun i => a ≤ i && i ≤ b) = [] := by
    rw [filter_eq_nil_iff]
    intro i hi
    have := hbefore i hi a (mem_append_left _ ha)
    simp only [Bool.and_eq_true, decide_eq_true_eq]
    omega
  have hback : behind.filter (fun i => a ≤ i && i ≤ b) = [] := by
    rw [filter_eq_nil_iff]
    intro i hi
    have := hbehind b hb i hi
    simp only [Bool.and_eq_true, decide_eq_true_eq]
    omega
  have hself : s.leaves.filter (fun i => a ≤ i && i ≤ b) = s.leaves := by
    rw [filter_eq_self]
    intro i hi
    simpa using hbounds i hi
  rw [hinside.leaves_eq, filter_append, filter_append, hfront, hback, hself,
    nil_append, append_nil]

/-- The answers of `range?` for trees side by side follow one another. -/
theorem pairwise_ranges (hsorted : (leavesAll cs).Pairwise (· < ·)) :
    (cs.filterMap range?).Pairwise fun r r' => r.2 < r'.1 := by
  induction cs with
  | nil => exact .nil
  | cons c cs ih =>
    rw [leavesAll_cons, pairwise_append] at hsorted
    obtain ⟨-, hcs, hlt⟩ := hsorted
    cases hrange : c.range? with
    | none =>
      rw [filterMap_cons_none hrange]
      exact ih hcs
    | some r =>
      rw [filterMap_cons_some hrange]
      refine .cons (fun r' hr' => ?_) (ih hcs)
      obtain ⟨c', hc', hrange'⟩ := mem_filterMap.mp hr'
      refine hlt _ (range?_mem hrange).2 _ ?_
      exact (leaves_sublist_of_mem hc').subset (range?_mem hrange').1

/-- A child that covers something lies inside the `range?` of its node. -/
theorem range?_child {k : NodeKind} {w : Nat} {c : Tree} (hsorted : (leavesAll cs).Pairwise (· < ·))
    (hc : c ∈ cs) (hrange : c.range? = some (a, b)) :
    ∃ a' b', (node k w cs).range? = some (a', b') ∧ a' ≤ a ∧ a ≤ b ∧ b ≤ b' := by
  have hsub := leaves_sublist_of_mem hc
  obtain ⟨ha, hb⟩ := range?_mem hrange
  have hsome : (node k w cs).range?.isSome = true := by
    rw [range?_isSome_iff, leaves_node]
    exact ne_nil_of_mem (hsub.subset ha)
  obtain ⟨⟨a', b'⟩, hnode⟩ := Option.isSome_iff_exists.mp hsome
  have hbounds := mem_leaves_bounds (t := node k w cs) (by rwa [leaves_node]) hnode
  rw [leaves_node] at hbounds
  exact ⟨a', b', hnode, (hbounds a (hsub.subset ha)).1,
    (mem_leaves_bounds (hsorted.sublist hsub) hrange a ha).2, (hbounds b (hsub.subset hb)).2⟩

end Sorted

end Tree

namespace Parsed

/-- The `slice?` of a stretch of tokens, the last one included, is their texts in a row. -/
theorem slice_placed {source : String} {xs : List Lexeme}
    (h : Lexer.Lexes .markup xs source.toList) {a b : Nat} (hab : a ≤ b) (hb : b < xs.length) :
    Text.slice source ((placed xs).getD a default).start ((placed xs).getD b default).stop =
      String.join (((placed xs).extract a (b + 1)).toList.map (·.text source)) := by
  have ha : a < xs.length := Nat.lt_of_le_of_lt hab hb
  have hstart : ((placed xs).getD a default).start = Lexer.start xs a := by
    rw [Array.getD_eq_getD_getElem?, placed_getElem? ha, Option.getD_some]
  have hstop : ((placed xs).getD b default).stop = Lexer.start xs (b + 1) := by
    rw [Array.getD_eq_getD_getElem?, placed_getElem? hb, Option.getD_some, Lexer.start_succ hb]
    rfl
  have hsource : source.toList = (xs.take a).flatMap Lexeme.text ++
      ((xs.take (b + 1)).drop a).flatMap Lexeme.text ++ (xs.drop (b + 1)).flatMap Lexeme.text := by
    have hfront : xs.take a = (xs.take (b + 1)).take a := by
      rw [take_take, Nat.min_eq_left (by omega)]
    rw [hfront, ← flatMap_append, take_append_drop, ← flatMap_append,
      take_append_drop, h.flatMap_text]
  have htexts := Lexer.flatMap_text_place hsource
  rw [flatMap_def] at htexts
  rw [hstart, hstop, ← Lexer.start_add_stretch xs (Nat.le_succ_of_le hab), Lexer.start,
    Text.slice_of_toList hsource, String.join_eq, toList_extract_placed (by omega) hb,
    map_map]
  exact (congrArg String.ofList htexts).symm

/-- What the nodes of a parsed source know of their places agrees with the tokens. -/
structure Located (source : String) (p : Parsed) : Prop where
  /-- A tree covers a range of tokens exactly if it has a leaf. -/
  ranged : ∀ t ∈ p.tree.subtrees, t.range?.isSome = true ↔ t.leaves ≠ []
  /-- Its leaves are the significant tokens in its range, and its span and its text cover all tokens
  there. -/
  covered : ∀ t ∈ p.tree.subtrees, ∀ first last, t.range? = some (first, last) →
    t.leaves = ((List.range p.tokens.size).filter
      fun i => Significant.isSeen (p.tokens.getD i default)).filter
        (fun i => first ≤ i && i ≤ last) ∧
    p.span? t = some ⟨(p.tokens.getD first default).start, (p.tokens.getD last default).stop⟩ ∧
    p.text source t = String.join ((p.tokens.extract first (last + 1)).toList.map (·.text source))
  siblings : ∀ t ∈ p.tree.subtrees,
    (t.children.filterMap Tree.range?).Pairwise fun r r' => r.2 < r'.1
  nested : ∀ t ∈ p.tree.subtrees, ∀ c ∈ t.children, ∀ a b, c.range? = some (a, b) →
    ∃ a' b', t.range? = some (a', b') ∧ a' ≤ a ∧ a ≤ b ∧ b ≤ b'
  /-- The outline lists the inner nodes by their numbers. -/
  listed : ∀ (q : Nat) k w cs, p.tree.inner[q]? = some (Tree.node k w cs) → ∃ parent,
    p.tree.outline[q]? = some ⟨k, parent, Tree.range? (.node k w cs), w⟩
  /-- Every inner child of a node has its number. -/
  children : ∀ (q : Nat) t us c vs, p.tree.inner[q]? = some t → t.children = us ++ c :: vs →
    c.isNode = true → p.tree.inner[q + 1 + Tree.nodeCountAll us]? = some c
  /-- The node around another is the one that has it as a child. -/
  parents : ∀ q m : Nat, p.tree.outline[m]?.bind Tree.OutlineNode.parent = some q ↔
    Tree.IsChild p.tree.inner q m
  /-- The owner of a token is the node that has its leaf as a child. -/
  owners : ∀ i q : Nat, p.tree.owner? i = some q ↔
    ∃ t w, p.tree.inner[q]? = some t ∧ Tree.leaf i w ∈ t.children
  /-- The significant tokens have owners, and no others. -/
  owned : ∀ i, (p.tree.owner? i).isSome = true ↔
    i < p.tokens.size ∧ Significant.isSeen (p.tokens.getD i default) = true

/-- In a source that can be read, ranges, numbers and owners agree with the tokens. -/
theorem ofSource_located {source : String} {parsed : Parsed} (h : ofSource source = .ok parsed) :
    parsed.Located source := by
  obtain ⟨xs, hlexes, rfl⟩ := ofSource_eq_ok_iff.mp h
  have hleaves := leaves_ofTokens (placed xs)
  have hsorted : (ofTokens (placed xs)).tree.leaves.Pairwise (· < ·) := by
    rw [hleaves, Significant.indices_ofTokens]
    exact Significant.sorted_seen _ 0
  rw [Significant.indices_eq_filter] at hleaves
  obtain ⟨cs, htree⟩ : ∃ cs, (ofTokens (placed xs)).tree = .branch .program cs := by
    obtain ⟨ts, hts, -⟩ :=
      Grammar.parse_added (symbols (placed xs) (Significant.ofTokens (placed xs)))
    rw [ofTokens, hts]
    exact ⟨_, Tree.relabel_branch _ _ _⟩
  have hroot : (ofTokens (placed xs)).tree.leaves = Tree.leavesAll cs := by
    rw [htree, Tree.leaves_branch]
  -- the end of the file is no leaf
  have hlt : ∀ i ∈ (ofTokens (placed xs)).tree.leaves, i < xs.length := by
    intro i hi
    rw [hleaves, List.mem_filter, List.mem_range, placed_size] at hi
    rcases Nat.lt_or_eq_of_le (Nat.le_of_lt_succ hi.1) with hlt | rfl
    · exact hlt
    · have hseen := hi.2
      rw [Array.getD_eq_getD_getElem?, placed_getElem?_end] at hseen
      cases hseen
  refine ⟨fun t _ => Tree.range?_isSome_iff, ?_, ?_, ?_, ?_, ?_, ?_, ?_, ?_⟩
  · intro t ht first last hrange
    obtain ⟨hfirst, hlast⟩ := Tree.range?_mem hrange
    obtain ⟨before, behind, hinside⟩ := Tree.exists_inside _ ht
    have hsub : t.leaves ⊆ (ofTokens (placed xs)).tree.leaves := by
      rw [hinside.leaves_eq]
      intro i hi
      simp [hi]
    have hspan : (ofTokens (placed xs)).span? t = some
        ⟨((placed xs).getD first default).start, ((placed xs).getD last default).stop⟩ := by
      obtain ⟨hhead, hend⟩ := Tree.range?_eq_some_iff.mp hrange
      rw [span?, Tree.first?_eq_head?, Tree.last?_eq_getLast?, hhead, hend]
      rfl
    refine ⟨?_, hspan, ?_⟩
    · rw [Tree.leaves_eq_filter hsorted ht hrange, hleaves]
      rfl
    · rw [text, hspan]
      have hle := Tree.mem_leaves_bounds (Tree.sorted_of_mem_subtrees hsorted ht) hrange
      exact slice_placed hlexes (hle first hfirst).2 (hlt last (hsub hlast))
  · intro t ht
    have htsorted := Tree.sorted_of_mem_subtrees hsorted ht
    cases t with
    | leaf i w => exact .nil
    | node k w cs => exact Tree.pairwise_ranges (by rwa [Tree.leaves_node] at htsorted)
  · intro t ht c hc a b hrange
    have htsorted := Tree.sorted_of_mem_subtrees hsorted ht
    cases t with
    | leaf i w => cases hc
    | node k w cs => exact Tree.range?_child (by rwa [Tree.leaves_node] at htsorted) hc hrange
  · intro q k w cs hq
    exact (Tree.inner_getElem?_iff.mp hq).outline_getElem?
  · intro q t us c vs hq hchildren hc
    have hpath := Tree.inner_getElem?_iff.mp hq
    obtain ⟨k, w, cs, rfl⟩ := hpath.exists_eq_node
    rw [show cs = us ++ c :: vs from hchildren] at hpath
    exact (hpath.ofChild hc).inner_getElem?
  · exact fun q m => Tree.outline_parent_iff
  · intro i q
    rw [htree]
    exact Tree.owner?_eq_some_iff (hroot ▸ hsorted.imp Nat.ne_of_lt)
  · intro i
    rw [htree]
    rw [Tree.branch, Tree.owner?_isSome_iff, ← hroot, hleaves, List.mem_filter, List.mem_range]
    rfl

/-- A condition that breaks off: the tree has nodes without a leaf, and the open tag has no owner. -/
theorem ofSource_located_malformed : ∃ parsed,
    ofSource "<?php /* a */ if (" = .ok parsed ∧
      parsed.tree.inner.any (fun t => t.range?.isNone) = true ∧ parsed.tree.owner? 0 = none ∧
        parsed.Located "<?php /* a */ if (" := by
  have hparsed : (ofSource "<?php /* a */ if (").toOption.any (fun p =>
      p.tree.inner.any (fun t => t.range?.isNone) && p.tree.owner? 0 == none) = true := by
    decide +kernel
  obtain ⟨parsed, h, hparsed⟩ := exists_ok_of_any hparsed
  obtain ⟨hempty, howner⟩ := Bool.and_eq_true_iff.mp hparsed
  exact ⟨parsed, h, hempty, eq_of_beq howner, ofSource_located h⟩

end Parsed

end CodeLayout
