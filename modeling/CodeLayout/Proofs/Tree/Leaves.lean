import CodeLayout.Tree.Basic

/-!
# The leaves of a tree

The first and the last token of a tree are the ends of its row of leaves, and relabelling maps that
row.  `Tree.Every P` says that a property of a kind and its children holds at every inner node, and
`Inside n t` where a tree stands among the leaves of another one.
-/

namespace CodeLayout.Tree

open List

/-- What holds of a node if it holds of its children holds of all trees. -/
theorem induct {P : Tree → Prop} (leaf : ∀ i w, P (leaf i w))
    (node : ∀ k w cs, (∀ t ∈ cs, P t) → P (node k w cs)) : (t : Tree) → P t
  | .leaf i w => leaf i w
  | .node k w cs => node k w cs fun t _ => induct leaf node t

/-! ## Rows of leaves -/

@[simp] theorem leaves_leaf (i w : Nat) : leaves (leaf i w) = [i] := by rw [leaves]

@[simp] theorem leaves_node (k : NodeKind) (w : Nat) (cs : List Tree) :
    leaves (node k w cs) = leavesAll cs := by rw [leaves]

@[simp] theorem leaves_branch (k : NodeKind) (cs : List Tree) :
    leaves (branch k cs) = leavesAll cs := by rw [branch, leaves_node]

@[simp] theorem leavesAll_nil : leavesAll [] = [] := by rw [leavesAll]

@[simp] theorem leavesAll_cons (t : Tree) (ts : List Tree) :
    leavesAll (t :: ts) = leaves t ++ leavesAll ts := by rw [leavesAll]

@[simp] theorem leavesAll_append (ts us : List Tree) :
    leavesAll (ts ++ us) = leavesAll ts ++ leavesAll us := by
  induction ts with
  | nil => simp
  | cons t ts ih => simp [ih]

variable {ts cs : List Tree} {P : NodeKind → List Tree → Prop} {k : NodeKind} {w : Nat} {n t : Tree}

theorem leavesAll_sublist {us : List Tree} (h : ts.Sublist us) :
    (leavesAll ts).Sublist (leavesAll us) := by
  induction h with
  | slnil => exact .refl _
  | cons t _ ih =>
    rw [leavesAll_cons]
    exact ih.trans (sublist_append_right _ _)
  | cons_cons t _ ih =>
    simp only [leavesAll_cons]
    exact ih.append_left _

theorem leaves_sublist_of_mem (h : t ∈ ts) : t.leaves.Sublist (leavesAll ts) := by
  have := leavesAll_sublist (singleton_sublist.mpr h)
  rwa [leavesAll_cons, leavesAll_nil, append_nil] at this

mutual

/-- `first?` of a tree is the first of its `leaves`. -/
theorem first?_eq_head? : (t : Tree) → t.first? = t.leaves.head?
  | leaf i w => by rw [first?, leaves_leaf, head?_cons]
  | node k w cs => by rw [first?, firstAll?_eq_head? cs, leaves_node]

theorem firstAll?_eq_head? : (ts : List Tree) → firstAll? ts = (leavesAll ts).head?
  | [] => by rw [firstAll?, leavesAll_nil, head?_nil]
  | t :: ts => by
    rw [firstAll?, first?_eq_head? t, firstAll?_eq_head? ts, leavesAll_cons, head?_append,
      Option.orElse_eq_orElse, Option.orElse_eq_or]

end

mutual

/-- `last?` of a tree is the last of its `leaves`. -/
theorem last?_eq_getLast? : (t : Tree) → t.last? = t.leaves.getLast?
  | leaf i w => by rw [last?, leaves_leaf, getLast?_singleton]
  | node k w cs => by rw [last?, lastAll?_eq_getLast? cs, leaves_node]

theorem lastAll?_eq_getLast? : (ts : List Tree) → lastAll? ts = (leavesAll ts).getLast?
  | [] => by rw [lastAll?, leavesAll_nil, getLast?_nil]
  | t :: ts => by
    rw [lastAll?, last?_eq_getLast? t, lastAll?_eq_getLast? ts, leavesAll_cons,
      getLast?_append, Option.orElse_eq_orElse, Option.orElse_eq_or]

end

mutual

theorem leaves_relabel (f : Nat → Nat × Nat) :
    (t : Tree) → (relabel f t).leaves = t.leaves.map fun i => (f i).1
  | leaf i w => by rw [relabel, leaves_leaf, leaves_leaf, map_singleton]
  | node k w cs => by rw [relabel, leaves_branch, leavesAll_relabelAll f cs, leaves_node]

theorem leavesAll_relabelAll (f : Nat → Nat × Nat) :
    (ts : List Tree) → leavesAll (relabelAll f ts) = (leavesAll ts).map fun i => (f i).1
  | [] => by rw [relabelAll, leavesAll_nil, map_nil]
  | t :: ts => by
    rw [relabelAll, leavesAll_cons, leavesAll_cons, map_append, leaves_relabel f t,
      leavesAll_relabelAll f ts]

end

theorem relabelAll_eq_map (f : Nat → Nat × Nat) (ts : List Tree) :
    relabelAll f ts = ts.map (relabel f) := by
  induction ts with
  | nil => rfl
  | cons t ts ih => rw [relabelAll, ih, map_cons]

theorem forall_mem_relabelAll {f : Nat → Nat × Nat} {P : Tree → Prop} :
    (∀ t ∈ relabelAll f ts, P t) ↔ ∀ t ∈ ts, P (t.relabel f) := by
  rw [relabelAll_eq_map, forall_mem_map]

theorem relabel_branch (f : Nat → Nat × Nat) (k : NodeKind) (cs : List Tree) :
    relabel f (branch k cs) = branch k (relabelAll f cs) := by rw [branch, relabel]

/-! ## Properties of all inner nodes -/

mutual

/-- The property holds at every inner node of a tree. -/
def Every (P : NodeKind → List Tree → Prop) : Tree → Prop
  | leaf .. => True
  | node k _ cs => P k cs ∧ EveryAll P cs

/-- The property holds at every inner node of several trees. -/
def EveryAll (P : NodeKind → List Tree → Prop) : List Tree → Prop
  | [] => True
  | t :: ts => Every P t ∧ EveryAll P ts

end

theorem everyAll_iff : EveryAll P ts ↔ ∀ t ∈ ts, Every P t := by
  induction ts with
  | nil => simp [EveryAll]
  | cons t ts ih => simp [EveryAll, ih]

theorem every_branch : Every P (branch k cs) ↔ P k cs ∧ ∀ t ∈ cs, Every P t := by
  rw [branch, Every, everyAll_iff]

theorem every_node : Every P (node k w cs) ↔ P k cs ∧ ∀ t ∈ cs, Every P t := by
  rw [Every, everyAll_iff]

theorem every_leaf {i : Nat} : Every P (leaf i w) := by
  rw [Every]
  trivial

theorem every_relabel {Q : NodeKind → List Tree → Prop} {f : Nat → Nat × Nat}
    (hPQ : ∀ k cs, P k cs → Q k (relabelAll f cs)) (t : Tree) (h : Every P t) :
    Every Q (relabel f t) := by
  induction t using induct with
  | leaf i w =>
    rw [relabel]
    exact every_leaf
  | node k w cs ih =>
    rw [every_node] at h
    rw [relabel, every_branch, forall_mem_relabelAll]
    exact ⟨hPQ k cs h.1, fun t ht => ih t ht (h.2 t ht)⟩

/-- `Every` node has a property if it follows from what a tree hands down to its children. -/
theorem every_of_inherited {I : Tree → Prop}
    (h : ∀ k w cs, I (node k w cs) → P k cs ∧ ∀ t ∈ cs, I t) (t : Tree) (ht : I t) : Every P t := by
  induction t using induct with
  | leaf i w => exact every_leaf
  | node k w cs ih =>
    obtain ⟨hk, hcs⟩ := h k w cs ht
    exact every_node.mpr ⟨hk, fun t ht => ih t ht (hcs t ht)⟩

/-! ## Properties of nodes in no error node -/

mutual

/-- The property holds at every inner node of a tree that is no error node and lies in none. -/
def Sound (P : NodeKind → List Tree → Prop) : Tree → Prop
  | leaf .. => True
  | node k _ cs => k = .error ∨ P k cs ∧ SoundAll P cs

/-- The property holds at every such node of several trees. -/
def SoundAll (P : NodeKind → List Tree → Prop) : List Tree → Prop
  | [] => True
  | t :: ts => Sound P t ∧ SoundAll P ts

end

theorem soundAll_iff : SoundAll P ts ↔ ∀ t ∈ ts, Sound P t := by
  induction ts with
  | nil => simp [SoundAll]
  | cons t ts ih => simp [SoundAll, ih]

theorem sound_leaf {i : Nat} : Sound P (leaf i w) := by
  rw [Sound]
  trivial

theorem sound_node : Sound P (node k w cs) ↔ k = .error ∨ P k cs ∧ ∀ t ∈ cs, Sound P t := by
  rw [Sound, soundAll_iff]

theorem sound_branch :
    Sound P (branch k cs) ↔ k = .error ∨ P k cs ∧ ∀ t ∈ cs, Sound P t := sound_node

theorem sound_relabel {Q : NodeKind → List Tree → Prop} {f : Nat → Nat × Nat}
    (hPQ : ∀ k cs, P k cs → Q k (relabelAll f cs)) (t : Tree) (h : Sound P t) :
    Sound Q (relabel f t) := by
  induction t using induct with
  | leaf i w =>
    rw [relabel]
    exact sound_leaf
  | node k w cs ih =>
    rw [sound_node] at h
    rw [relabel, sound_branch, forall_mem_relabelAll]
    exact h.imp_right fun h => ⟨hPQ k cs h.1, fun t ht => ih t ht (h.2 t ht)⟩

/-! ## Trees inside a tree -/

/-- The tree `n` is `t` or lies inside it, with the leaves of `t` in front of it and behind it. -/
inductive Inside (n : Tree) : (t : Tree) → (before behind : List Nat) → Prop
  | here : Inside n n [] []
  | child {k : NodeKind} {w : Nat} {t : Tree} {us vs : List Tree} {before behind : List Nat} :
      Inside n t before behind →
        Inside n (node k w (us ++ t :: vs)) (leavesAll us ++ before) (behind ++ leavesAll vs)

theorem Inside.leaves_eq {before behind : List Nat} (h : Inside n t before behind) :
    t.leaves = before ++ n.leaves ++ behind := by
  induction h with
  | here => simp
  | child _ ih => simp [ih]

theorem Inside.relabel {before behind : List Nat} (h : Inside n t before behind)
    (f : Nat → Nat × Nat) :
    Inside (n.relabel f) (t.relabel f) (before.map fun i => (f i).1)
      (behind.map fun i => (f i).1) := by
  induction h with
  | here => exact .here
  | child _ ih =>
    rw [Tree.relabel, relabelAll_eq_map, map_append, map_cons, map_append,
      map_append, ← leavesAll_relabelAll, ← leavesAll_relabelAll, relabelAll_eq_map,
      relabelAll_eq_map]
    exact .child ih

theorem isNode_relabel (f : Nat → Nat × Nat) (t : Tree) : (t.relabel f).isNode = t.isNode := by
  cases t with
  | leaf i w => rw [Tree.relabel]; rfl
  | node k w cs => rw [Tree.relabel]; rfl

theorem kind?_relabel (f : Nat → Nat × Nat) (t : Tree) : (t.relabel f).kind? = t.kind? := by
  cases t with
  | leaf i w => rw [Tree.relabel]; rfl
  | node k w cs => rw [Tree.relabel]; rfl

theorem children_relabel (f : Nat → Nat × Nat) (t : Tree) :
    (t.relabel f).children = t.children.map (Tree.relabel f) := by
  cases t with
  | leaf i w => rw [Tree.relabel]; rfl
  | node k w cs => rw [Tree.relabel, relabelAll_eq_map]; rfl

theorem isKind_relabel (f : Nat → Nat × Nat) (t : Tree) (k : NodeKind) :
    (t.relabel f).isKind k = t.isKind k := by
  cases t with
  | leaf i w => rw [relabel]; rfl
  | node k' w cs => rw [relabel]; rfl

end CodeLayout.Tree
