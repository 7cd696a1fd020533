import CodeLayout.Proofs.Annotate.Steps

/-!
# Visiting trees in order

A row of trees is visited in step if every tree of it is (`visits_visitAll`).  What is asked of a visit
is that it visits the leaves of its tree (`Follows`), and what is known of a row are the order of its
leaves and the form of its nodes (`Row`).  A list looks for its signs and is laid out around them
(`steps_list`).
-/

namespace CodeLayout.Annotate

open List
open CodeLayout.Tree (Led Every everyAll_iff leafIndex? leavesAll leavesAll_append leavesAll_cons
  leavesAll_nil leavesAll_sublist leaves_leaf)
open Parsed (kindOf)

/-! ## Rows of children -/

/-- Trees in the order of their leaves, of a bounded height, with braces and parentheses in order at
every node, as they come from the grammar. -/
structure Row (c : Context) (n : Nat) (ts : List Tree) : Prop where
  sorted : (leavesAll ts).Pairwise (· < ·)
  orderly : ∀ t ∈ ts, t.Every (Tree.Orderly (kindOf c.tokens))
  formed : ∀ t ∈ ts, t.Sound (Tree.Formed (kindOf c.tokens))
  height_le : ∀ t ∈ ts, t.height ≤ n

/-- The tree is a leaf other than the tag that prints, or a construct that starts with one. -/
def startsPlain (c : Context) : Tree → Bool
  | .leaf i _ => (c.tokens.getD i default).kind != .openTagWithEcho
  | .node kind _ _ =>
    match kind with
    | .emptyStmt | .elseIfClause | .elseClause | .catchClause | .finallyClause => true
    | _ => false

/-- Whatever tree is visited, its leaves are visited in order; a role may wait for a tree that starts
with a sign. -/
structure Follows (c : Context) (xs : List Lexeme) (n : Nat) (visit : Visit) : Prop where
  visits : ∀ kind t, Row c n [t] → Visits c xs t.leaves (visit kind t)
  plain : ∀ kind {t W A}, Row c n [t] → startsPlain c t = true →
    Steps c xs W A t.leaves (visit kind t)

namespace Row

variable {c : Context} {n : Nat} {t : Tree} {ts us : List Tree}

theorem sublist (h : Row c n us) (hsub : ts.Sublist us) : Row c n ts where
  sorted := h.sorted.sublist (leavesAll_sublist hsub)
  orderly t ht := h.orderly t (hsub.subset ht)
  formed t ht := h.formed t (hsub.subset ht)
  height_le t ht := h.height_le t (hsub.subset ht)

theorem left (h : Row c n (ts ++ us)) : Row c n ts := h.sublist (sublist_append_left ts us)

theorem right (h : Row c n (ts ++ us)) : Row c n us := h.sublist (sublist_append_right ts us)

theorem mem (h : Row c n ts) (ht : t ∈ ts) : Row c n [t] :=
  h.sublist (singleton_sublist.mpr ht)

theorem head (h : Row c n (t :: ts)) : Row c n [t] := h.mem mem_cons_self

theorem tail (h : Row c n (t :: ts)) : Row c n ts := h.sublist (sublist_cons_self t ts)

/-- The leaves of a first part of a `Row` come before those of the rest. -/
theorem lt_of_append (h : Row c n (ts ++ us)) :
    ∀ i ∈ leavesAll ts, ∀ j ∈ leavesAll us, i < j := by
  have := h.sorted
  rw [leavesAll_append] at this
  exact (pairwise_append.mp this).2.2

theorem lt_of_cons (h : Row c n (t :: ts)) : ∀ i ∈ t.leaves, ∀ j ∈ leavesAll ts, i < j := by
  have happend : Row c n ([t] ++ ts) := h
  simpa using happend.lt_of_append

theorem heightAll_le (h : Tree.heightAll ts ≤ n) : ∀ t ∈ ts, t.height ≤ n := by
  induction ts with
  | nil => simp
  | cons t ts ih =>
    rw [Tree.heightAll] at h
    exact forall_mem_cons.mpr ⟨by omega, ih (by omega)⟩

variable {kind : NodeKind} {w : Nat} {cs : List Tree}

/-- A node of a `Row` is not low. -/
theorem node (h : Row c n [.node kind w cs]) :
    0 < n ∧ Tree.Orderly (kindOf c.tokens) kind cs := by
  have horderly := h.orderly _ mem_cons_self
  have hheight := h.height_le _ mem_cons_self
  rw [Every, everyAll_iff] at horderly
  rw [Tree.height] at hheight
  exact ⟨by omega, horderly.1⟩

/-- Outside of error nodes a node is `Formed`, and its children are a `Row`. -/
theorem children (h : Row c n [.node kind w cs]) (hkind : kind ≠ .error) :
    Row c (n - 1) cs ∧ Tree.Formed (kindOf c.tokens) kind cs := by
  have horderly := h.orderly _ mem_cons_self
  have hheight := h.height_le _ mem_cons_self
  obtain ⟨hformed, hsound⟩ := (Tree.sound_node.mp (h.formed _ mem_cons_self)).resolve_left hkind
  rw [Every, everyAll_iff] at horderly
  rw [Tree.height] at hheight
  exact ⟨⟨by simpa using h.sorted, horderly.2, hsound, heightAll_le (by omega)⟩, hformed⟩

end Row

theorem leaves_of_leafIndex? {t : Tree} {i : Nat} (h : t.leafIndex? = some i) : t.leaves = [i] := by
  cases t with
  | leaf j w =>
    cases h
    exact leaves_leaf _ _
  | node k w cs => exact absurd h (by simp [leafIndex?])

/-! ## Trees that start with a sign -/

section Led

variable {c : Context} {ts us : List Tree}

/-- The first of trees that are `Led` is a leaf other than the tag that prints. -/
theorem exists_leaf_of_led (h : Led (kindOf c.tokens) ts) :
    ∃ i w rest, ts = .leaf i w :: rest ∧ (c.token i).kind ≠ .openTagWithEcho := by
  obtain ⟨t, rest, kind, rfl, hsign, hne⟩ := h
  cases t with
  | leaf j w =>
    refine ⟨j, w, rest, rfl, fun hecho => hne ?_⟩
    exact Option.some.inj (hsign.symm.trans (congrArg some hecho))
  | node k w cs => exact hsign.elim

/-- Trees that are `Led` have a leaf. -/
theorem leavesAll_ne_nil_of_led (h : Led (kindOf c.tokens) ts) : leavesAll ts ≠ [] := by
  obtain ⟨i, w, rest, rfl, -⟩ := exists_leaf_of_led h
  simp

/-- A first part of trees that are `Led` is so too, unless it is empty. -/
theorem led_of_append (h : Led (kindOf c.tokens) (ts ++ us)) :
    ts = [] ∨ Led (kindOf c.tokens) ts := by
  cases ts with
  | nil => exact .inl rfl
  | cons t ts =>
    obtain ⟨u, rest, kind, heq, hsign⟩ := h
    obtain ⟨rfl, rfl⟩ := cons.inj heq
    exact .inr ⟨t, ts, kind, rfl, hsign⟩

variable {t : Tree}

theorem kind_of_leafKind {k : TokenKind} {i : Nat}
    (hkind : (t.leafIndex?.map fun i => (c.token i).kind) = some k)
    (hleaf : t.leafIndex? = some i) : (c.token i).kind = k := by
  rw [hleaf] at hkind
  exact Option.some.inj hkind

theorem startsPlain_of_led (hled : Led (kindOf c.tokens) (t :: ts)) :
    t.leaves ≠ [] ∧ startsPlain c t = true := by
  obtain ⟨i, w, rest, hcons, hi⟩ := exists_leaf_of_led hled
  cases hcons
  exact ⟨by simp, by simpa [startsPlain] using hi⟩

theorem startsPlain_of_leafKind {k : TokenKind}
    (h : (t.leafIndex?.map fun i => (c.token i).kind) = some k)
    (hk : k ≠ .openTagWithEcho) : t.leaves ≠ [] ∧ startsPlain c t = true := by
  cases t with
  | leaf i w =>
    obtain rfl := Option.some.inj h
    exact ⟨by simp, by simpa [startsPlain] using hk⟩
  | node kind w cs => cases h

end Led

section Rows

variable {V W : Prop} {A : Nat → Prop} {c : Context} {xs : List Lexeme} {n : Nat}
  {visit : Visit} {kind : NodeKind} {ts us : List Tree}

/-- `Visits` for children that are visited one after the other. -/
theorem visits_forM {f : Tree → Emit Unit} (hr : Row c n ts)
    (hf : ∀ t ∈ ts, Row c n [t] → Visits c xs t.leaves (f t)) :
    Visits c xs (leavesAll ts) (ts.forM f) := by
  induction ts with
  | nil => exact .nothing .pure
  | cons t ts ih =>
    rw [leavesAll_cons, List.forM]
    refine (hf t mem_cons_self hr.head).bind (fun _ => ?_) hr.lt_of_cons
    exact ih hr.tail fun u hu => hf u (mem_cons_of_mem t hu)

theorem visits_forM_zipIdx {f : Tree × Nat → Emit Unit} (hr : Row c n ts) (k : Nat)
    (hf : ∀ t j, ts[j]? = some t → Row c n [t] → Visits c xs t.leaves (f (t, k + j))) :
    Visits c xs (leavesAll ts) ((ts.zipIdx k).forM f) := by
  induction ts generalizing k with
  | nil => exact .nothing .pure
  | cons t ts ih =>
    rw [leavesAll_cons, zipIdx_cons, List.forM]
    refine (hf t 0 rfl hr.head).bind (fun _ => ?_) hr.lt_of_cons
    refine ih hr.tail (k + 1) fun u j hj hu => ?_
    have := hf u (j + 1) hj hu
    rwa [← Nat.add_assoc, Nat.add_right_comm] at this

theorem visits_visitAll (hv : Follows c xs n visit) (hr : Row c n ts) :
    Visits c xs (leavesAll ts) (visitAll visit kind ts) :=
  visits_forM hr fun t _ ht => hv.visits kind t ht

/-- Attributes are never empty. -/
theorem visits_attributes {w : Nat} {cs : List Tree} (hv : Follows c xs n visit)
    (hr : Row c n [.node .attributeGroup w cs]) (kind : NodeKind) :
    Visits c xs (Tree.leaves (.node .attributeGroup w cs)) (do
      visit kind (.node .attributeGroup w cs)
      role .afterAttribute) := by
  refine (hv.visits kind _ hr).bind_role (.inl ?_)
  rw [Tree.leaves_node]
  exact leavesAll_ne_nil_of_led (hr.children (by decide)).2

theorem visits_walk (hc : Reading c xs) (hv : Follows c xs n visit) (hr : Row c n ts) :
    Visits c xs (leavesAll ts) (walk visit kind ts) := by
  refine visits_forM hr fun t _ ht => ?_
  unfold walkChild
  split
  · rw [leaves_leaf]
    exact visits_walkLeaf hc
  · exact visits_attributes hv ht kind
  · exact hv.visits kind _ ht

variable {α β : Type} {m : Emit α} {f : α → Emit β} {t : Tree} {i : Nat}

/-- `Steps` for a first part of a row, then the rest. -/
theorem Steps.split (hr : Row c n (ts ++ us)) (hm : Steps c xs W A (leavesAll ts) m)
    (hf : ∀ a, Visits c xs (leavesAll us) (f a)) :
    Steps c xs W A (leavesAll (ts ++ us)) (m >>= f) := by
  rw [leavesAll_append]
  exact hm.bind hf hr.lt_of_append

theorem Steps.split_past (hr : Row c n (ts ++ us)) (hm : Steps c xs W A (leavesAll ts) m)
    (hne : leavesAll ts ≠ [] ∨ ∀ k, A k → Past k)
    (hf : ∀ a, Steps c xs False Past (leavesAll us) (f a)) :
    Steps c xs W A (leavesAll (ts ++ us)) (m >>= f) := by
  rw [leavesAll_append]
  exact hm.bind_past hne hf hr.lt_of_append

theorem Steps.cons_to {B : Nat → Prop} (hr : Row c n (t :: ts))
    (hm : Steps c xs W A t.leaves m)
    (hB : ∀ k k', A k → k ≤ k' → (t.leaves ≠ [] → Past k') → B k')
    (hf : ∀ a, Steps c xs False B (leavesAll ts) (f a)) :
    Steps c xs W A (leavesAll (t :: ts)) (m >>= f) := by
  rw [leavesAll_cons]
  exact hm.bind_to hB hf hr.lt_of_cons

/-- `Steps` for the first tree of a row, then the rest. -/
theorem Steps.cons (hr : Row c n (t :: ts)) (hm : Steps c xs W A t.leaves m)
    (hf : ∀ a, Visits c xs (leavesAll ts) (f a)) :
    Steps c xs W A (leavesAll (t :: ts)) (m >>= f) := by
  rw [leavesAll_cons]
  exact hm.bind hf hr.lt_of_cons

theorem Steps.cons_past (hr : Row c n (t :: ts)) (hm : Steps c xs W A t.leaves m)
    (hne : t.leaves ≠ [] ∨ ∀ k, A k → Past k)
    (hf : ∀ a, Steps c xs False Past (leavesAll ts) (f a)) :
    Steps c xs W A (leavesAll (t :: ts)) (m >>= f) := by
  rw [leavesAll_cons]
  exact hm.bind_past hne hf hr.lt_of_cons

/-- `Steps` where the tree to visit is a leaf. -/
theorem Steps.at_leaf {w : Nat} (hm : Steps c xs W A [i] m) :
    Steps c xs W A (Tree.leaves (.leaf i w)) m := by
  rwa [leaves_leaf]

/-- `Steps` for the first tree of a row, and nothing else. -/
theorem Steps.only (hm : Steps c xs W A t.leaves m)
    (hne : t.leaves ≠ [] ∨ ∀ k, A k → Past k) :
    Steps c xs W A (leavesAll (t :: ts)) m := by
  refine hm.mono (fun i hi => ?_) hne
  rw [leavesAll_cons]
  exact mem_append_left _ hi

theorem Steps.sublist (hm : Steps c xs W A (leavesAll ts) m) (hsub : ts.Sublist us)
    (hne : leavesAll ts ≠ [] ∨ ∀ k, A k → Past k) : Steps c xs W A (leavesAll us) m :=
  hm.mono (fun _ hi => (leavesAll_sublist hsub).subset hi) hne

/-- `Steps` for the first leaf of a row, and then what follows it. -/
theorem Steps.leaf_cons {f : Unit → Emit β} (hc : Reading c xs) (hr : Row c n (t :: ts))
    (ht : t.leaves = [i]) (hW : W → (c.token i).kind ≠ .openTagWithEcho)
    (hf : Steps c xs False (After xs i) (leavesAll ts) (f ())) :
    Steps c xs W A (leavesAll (t :: ts)) (leaf i >>= f) := by
  have hlt := hr.lt_of_cons
  rw [ht] at hlt
  rw [leavesAll_cons, ht]
  exact .leaf_bind hc hW hf (hlt i mem_cons_self)

/-- `Steps` for a sign that is visited first, for which a role may wait. -/
theorem Steps.word {f : Unit → Emit β} (hv : Follows c xs n visit) (hr : Row c n (t :: ts))
    (ht : t.leaves ≠ [] ∧ startsPlain c t = true)
    (hf : Steps c xs False Past (leavesAll ts) (f ())) :
    Steps c xs W A (leavesAll (t :: ts)) (visit kind t >>= f) :=
  .cons_past hr (hv.plain kind hr.head ht.2) (.inl ht.1) fun _ => hf

/-- `visitAll` with a role that may wait for trees that start with a sign. -/
theorem steps_visitAll (hv : Follows c xs n visit) (hr : Row c n ts)
    (hw : W → Led (kindOf c.tokens) ts) :
    Steps c xs W A (leavesAll ts) (visitAll visit kind ts) := by
  by_cases h : W
  · obtain ⟨i, w, rest, rfl, hi⟩ := exists_leaf_of_led (hw h)
    refine .cons hr (hv.plain kind hr.head ?_) fun _ => visits_visitAll hv hr.tail
    simpa [startsPlain] using hi
  · exact .relax h (.of_visits (visits_visitAll hv hr))

/-- What waits may wait for what follows a row of trees, if there are none. -/
theorem Steps.front {f : Unit → Emit β} (hv : Follows c xs n visit) (hr : Row c n (ts ++ us))
    (hw : W → ts = [] ∨ Led (kindOf c.tokens) ts)
    (hf : ∀ {V B}, (V → W) → Steps c xs V B (leavesAll us) (f ())) :
    Steps c xs W A (leavesAll (ts ++ us)) (visitAll visit kind ts >>= f) := by
  have hrts := hr.sublist (sublist_append_left ts us)
  by_cases h : W
  · rcases hw h with rfl | hled
    · exact .emit_bind .pure fun _ => hf id
    · exact .split hr (steps_visitAll hv hrts fun _ => hled) fun _ => hf False.elim
  · exact .split hr (steps_visitAll hv hrts (absurd · h)) fun _ => hf False.elim

end Rows

/-! ## Looking around -/

section Looking

variable {c : Context} {n : Nat}

/-- `modify` of the groups and of the waiting member emits nothing. -/
theorem marks_modify {f : State → State} (hf : ∀ s, (f s).cursor = s.cursor ∧ (f s).items = s.items ∧
    (f s).pending = s.pending) : Marks c (modify f : Emit Unit) := by
  refine ⟨fun {n} s _ => ?_, fun s _ s' hrun hs => ?_⟩
  · obtain ⟨hcursor, hitems, hpending⟩ := hf s
    refine ⟨(), f s, fun _ => rfl, hcursor, ⟨[], ?_, .nil, by simp⟩, ?_⟩
    · rw [hitems, append_nil]
    · rw [State.QueuesMarks, State.QueuesMarks, hpending]
      exact id
  · cases hrun
    obtain ⟨hcursor, hitems, hpending⟩ := hf s
    refine ⟨?_, ?_, ?_⟩
    · rw [hcursor, hitems, hpending]
      exact hs.stands
    · rw [hcursor]
      exact hs.leaf
    · rw [hpending]
      exact hs.waits

theorem marks_get : Marks c (get : Emit State) := .of_look (fun s => ⟨s, rfl⟩) fun _ => rfl

theorem marks_newGroup {kind : GroupKind} : Marks c (newGroup kind) :=
  .mark_bind marks_get fun _ => .mark_bind (marks_modify fun _ => ⟨rfl, rfl, rfl⟩) fun _ => .pure

variable {group i : Nat} {t : Tree} {ts : List Tree}

theorem marks_awaitMember {width : Option Nat} : Marks c (awaitMember group width t) := by
  refine .mark_bind marks_get fun _ => .mark_bind (marks_modify fun _ => ⟨rfl, rfl, rfl⟩) fun _ => ?_
  split
  · exact marks_modify fun _ => ⟨rfl, rfl, rfl⟩
  · exact .pure

theorem marks_takeMember : Marks c (takeMember t) := by
  refine .mark_bind marks_get fun _ => ?_
  split
  · refine .ite ?_ .pure
    exact .mark_bind (marks_modify fun _ => ⟨rfl, rfl, rfl⟩) fun _ => .pure
  · exact .pure

theorem marks_leafKind? : Marks c (leafKind? t) := by
  unfold leafKind?
  split
  · exact .mark_bind marks_kindAt fun _ => .pure
  · exact .pure

theorem marks_findLeaf? {kind : TokenKind} : Marks c (findLeaf? t kind) :=
  .read_bind (fun _ => rfl) <| .pure

theorem marks_textOf : Marks c (textOf t) := by
  refine .read_bind (fun _ => rfl) <| ?_
  split
  · exact .pure
  · exact .pure

theorem marks_isMultiline : Marks c (isMultiline t) :=
  .mark_bind marks_textOf fun _ => .pure

theorem marks_breaksAfter : Marks c (breaksAfter i) :=
  .mark_bind marks_triviaFrom fun _ => .read_bind (fun _ => rfl) <| .pure

theorem marks_breaksBefore : Marks c (breaksBefore i) :=
  .mark_bind marks_triviaBefore fun _ => .read_bind (fun _ => rfl) <| .pure

theorem marks_separated {u : Tree} : Marks c (separated t u) := by
  refine .read_bind (fun _ => rfl) <| ?_
  split
  · exact .pure
  · exact .pure

theorem marks_hasDocComment : Marks c (hasDocComment t) := by
  refine .read_bind (fun _ => rfl) <| ?_
  split
  · exact .pure
  · exact .pure

theorem marks_anyM {α : Type} {f : α → Emit Bool} {as : List α} (hf : ∀ a, Marks c (f a)) :
    Marks c (as.anyM f) := by
  induction as with
  | nil => exact .pure
  | cons a as ih =>
    rw [List.anyM]
    refine .mark_bind (hf a) fun b => ?_
    split
    · exact .pure
    · exact ih

theorem marks_signs {kinds : List TokenKind} : Marks c (signs kinds ts) :=
  .read_bind (fun _ => rfl) <| .pure

theorem marks_breaksAround {is : List Nat} : Marks c (breaksAround is) := by
  refine marks_anyM fun i => .mark_bind marks_breaksBefore fun _ => ?_
  exact .mark_bind marks_breaksAfter fun _ => .pure

theorem marks_listHasNewline {j : Nat} : Marks c (listHasNewline i ts j) := by
  refine .mark_bind marks_breaksAfter fun _ => .ite .pure ?_
  refine .mark_bind marks_breaksBefore fun _ => .ite .pure ?_
  exact .mark_bind marks_signs fun _ => marks_breaksAround

theorem marks_joinGroup : Marks c (joinGroup group t) := by
  refine .mark_bind marks_findLeaf? fun _ => .ite ?_ .pure
  split
  · exact .mark_bind marks_textOf fun _ => .mark_bind .pure fun _ => marks_awaitMember
  · exact .mark_bind .pure fun _ => marks_awaitMember

end Looking

/-! ## Lists -/

/-- A sign among some children: the position of a leaf, and its token. -/
structure SignAt (c : Context) (test : TokenKind → Bool) (ts : List Tree) (sign : Nat × Nat) :
    Prop where
  leaf : ∃ t, ts[sign.1]? = some t ∧ t.leafIndex? = some sign.2
  kind : test (c.tokens.getD sign.2 default).kind = true

section Signs

variable {c : Context} {test : TokenKind → Bool} {ts : List Tree}

theorem signAt_of_findSome? {pairs : List (Tree × Nat)} {sign : Nat × Nat}
    (hpairs : ∀ p ∈ pairs, p ∈ ts.zipIdx)
    (h : pairs.findSome? (fun ci =>
      match ci.1.leafIndex? with
      | some i => if test (c.token i).kind then some (ci.2, i) else none
      | none => none) = some sign) : SignAt c test ts sign := by
  obtain ⟨⟨t, k⟩, hmem, hsome⟩ := exists_of_findSome?_eq_some h
  have hget := mem_zipIdx_iff_getElem?.mp (hpairs _ hmem)
  split at hsome
  · next i hleaf =>
    split at hsome
    · next htest =>
      cases hsome
      exact ⟨⟨t, hget, hleaf⟩, htest⟩
    · exact absurd hsome (by simp)
  · exact absurd hsome (by simp)

/-- `findSign?` answers the first sign; if it finds none, there is none. -/
theorem findSign?_spec (c : Context) (test : TokenKind → Bool) (ts : List Tree) :
    ∃ sign?, (∀ s, Goes c (findSign? test ts) s sign? s) ∧
      (∀ sign ∈ sign?, SignAt c test ts sign) ∧
      (sign? = none → ∀ i w, .leaf i w ∈ ts → test (c.token i).kind = false) := by
  refine ⟨_, fun _ => Runs.goes rfl fun _ => rfl, fun _ h => signAt_of_findSome? (fun _ hp => hp) h, ?_⟩
  intro hnone i w hmem
  obtain ⟨k, hk⟩ := getElem?_of_mem hmem
  have := findSome?_eq_none_iff.mp hnone (.leaf i w, k)
    (mem_zipIdx_iff_getElem?.mpr hk)
  simpa [leafIndex?] using this

/-- `findLastSign?` answers a sign. -/
theorem findLastSign?_spec (c : Context) (test : TokenKind → Bool) (ts : List Tree) :
    ∃ sign?, (∀ s, Goes c (findLastSign? test ts) s sign? s) ∧
      ∀ sign ∈ sign?, SignAt c test ts sign :=
  ⟨_, fun _ => Runs.goes rfl fun _ => rfl, fun _ h => signAt_of_findSome? (fun _ hp => mem_reverse.mp hp) h⟩

/-- The children before and after a sign (`SignAt`). -/
theorem SignAt.split {sign : Nat × Nat} (h : SignAt c test ts sign) :
    ∃ t, t.leaves = [sign.2] ∧ ts = ts.take sign.1 ++ t :: ts.drop (sign.1 + 1) := by
  obtain ⟨t, ht, hleaf⟩ := h.leaf
  obtain ⟨hlt, rfl⟩ := List.getElem?_eq_some_iff.mp ht
  refine ⟨_, leaves_of_leafIndex? hleaf, ?_⟩
  rw [← List.drop_eq_getElem_cons hlt, List.take_append_drop]

/-- The children around and between two signs (`SignAt`). -/
theorem SignAt.split_two {test' : TokenKind → Bool} {sign sign' : Nat × Nat}
    (h : SignAt c test ts sign) (h' : SignAt c test' ts sign') (hlt : sign.1 < sign'.1) :
    ∃ t u, t.leaves = [sign.2] ∧ u.leaves = [sign'.2] ∧
      ts = ts.take sign.1 ++ t :: ((ts.take sign'.1).drop (sign.1 + 1) ++
        u :: ts.drop (sign'.1 + 1)) := by
  obtain ⟨t, ht, hts⟩ := h.split
  obtain ⟨u, hu, hts'⟩ := h'.split
  refine ⟨t, u, ht, hu, ?_⟩
  have hlen : sign'.1 ≤ ts.length := by
    obtain ⟨_, hget, _⟩ := h'.leaf
    exact (List.getElem?_eq_some_iff.mp hget).1.le
  have hdrop : ts.drop (sign.1 + 1) =
      (ts.take sign'.1).drop (sign.1 + 1) ++ u :: ts.drop (sign'.1 + 1) := by
    conv_lhs => rw [hts']
    rw [drop_append_of_le_length (by rw [length_take_of_le hlen]; omega)]
  rw [← hdrop, ← hts]

end Signs

section Lists

variable {W : Prop} {A : Nat → Prop} {c : Context} {xs : List Lexeme} {n : Nat} {visit : Visit}
  {kind : NodeKind} {t : Tree} {ts : List Tree}

/-- `leafKind?` is the kind of a child that is a leaf. -/
theorem runs_leafKind? (c : Context) (t : Tree) (s : State) :
    Runs c (leafKind? t) s (t.leafIndex?.map fun i => (c.token i).kind) s := by
  cases t with
  | leaf i w => rfl
  | node k w cs => rfl

theorem goes_leafKind? (c : Context) (t : Tree) (s : State) :
    Goes c (leafKind? t) s (t.leafIndex?.map fun i => (c.token i).kind) s :=
  fun margin => runs_leafKind? (c.withMargin margin) t s

theorem visits_listElements (hc : Reading c xs) (hv : Follows c xs n visit) (hr : Row c n ts)
    (list : ListKind) (group : Option Nat) :
    Visits c xs (leavesAll ts) (listElements visit kind list group ts) := by
  induction ts with
  | nil => exact .nothing .pure
  | cons t ts ih =>
    have hrest := ih hr.tail
    rw [listElements]
    dsimp only
    refine .look (goes_leafKind? c t) ?_
    split
    · next i hkind hleaf =>
      have ht := leaves_of_leafIndex? hleaf
      have hcomma : Visits c xs t.leaves (comma i) := by
        rw [ht]
        exact visits_comma hc (kind_of_leafKind hkind hleaf)
      refine .cons_past hr hcomma (.inl (by simp [ht])) fun _ => ?_
      exact .role_if (fun _ => id) (.of_visits hrest)
    · have hvisit : Visits c xs (leavesAll (t :: ts)) (do
          visit kind t
          listElements visit kind list group ts) :=
        .cons hr (hv.visits kind t hr.head) fun _ => hrest
      split
      · exact .emit_bind marks_joinGroup fun _ => hvisit
      · exact hvisit

variable {i : Nat}

section

variable (hc : Reading c xs)
include hc

/-- `Steps` for what follows the opening sign of a list, up to the closing one. -/
theorem steps_listRest (hv : Follows c xs n visit) {j : Nat} {u : Tree}
    {us : List Tree} (hr : Row c n (ts ++ u :: us)) (hu : u.leaves = [j])
    (hclose : isCloseSign (c.token j).kind = true) (kind : NodeKind)
    (shape : ListShape) (group : Option Nat) (broken broken' : Bool) (r r' : Role) :
    Steps c xs False (After xs i) (leavesAll (ts ++ u :: us)) (do
      if broken then indent shape.indent
      role r
      mark .anchor
      listElements visit kind shape.kind group ts
      mark .anchorEnd
      if broken' then dedentBefore shape.indent
      before r'
      leaf j) := by
  have hrts : Row c n ts := hr.left
  refine .optional marks_indent (.role_bind hc ?_)
  refine .emit_bind marks_anchor fun _ => .of_visits ?_
  refine .split hr (visits_listElements hc hv hrts _ _) fun _ => ?_
  refine .emit_bind marks_anchorEnd fun _ => .optional marks_dedentBefore ?_
  refine .only ?_ (.inl (by simp [hu]))
  rw [hu]
  exact visits_thenLeaf hc (ahead_of_ne (ne_echo_of_isCloseSign hclose))

theorem steps_listBetween (hv : Follows c xs n visit) (hr : Row c n ts)
    (hw : W → Led (kindOf c.tokens) ts) (shape : ListShape) (group : Option Nat)
    {opened closed : Nat × Nat} (hopen : SignAt c isOpenSign ts opened)
    (hclose : SignAt c isCloseSign ts closed) (hlt : opened.1 < closed.1) :
    Steps c xs W A (leavesAll ts) (listBetween visit kind shape group ts opened closed) := by
  obtain ⟨t, u, ht, hu, hts⟩ := hopen.split_two hclose hlt
  unfold listBetween
  dsimp only
  generalize ts.take opened.1 = as at hts ⊢
  generalize (ts.take closed.1).drop (opened.1 + 1) = bs at hts ⊢
  generalize ts.drop (closed.1 + 1) = ds at hts
  rw [hts] at hr hw ⊢
  have hrt : Row c n (t :: (bs ++ u :: ds)) := hr.right
  have hrest := steps_listRest (i := opened.2) hc hv hrt.tail hu hclose.kind kind shape group
  have hne := ne_echo_of_isOpenSign hopen.kind
  refine .front hv hr (fun h => led_of_append (hw h)) fun {V B} _ => .read_bind (fun _ => rfl) ?_
  refine .either .pure marks_listHasNewline fun _ => .ite ?_ ?_
  · exact .before_open (.leaf_cons hc hrt ht (fun _ => hne) (hrest _ _ _ _))
  · exact .leaf_cons hc hrt ht (fun _ => hne) (hrest _ _ _ _)

/-- `list` is laid out in step with its children; a role may wait for one that starts with a sign.
-/
theorem steps_list (hv : Follows c xs n visit) (hr : Row c n ts)
    (hw : W → Led (kindOf c.tokens) ts) (shape : ListShape) (group : Option Nat) :
    Steps c xs W A (leavesAll ts) (list visit kind ts shape group) := by
  obtain ⟨opened?, hopened, hopen, -⟩ := findSign?_spec c isOpenSign ts
  obtain ⟨closed?, hclosed, hclose⟩ := findLastSign?_spec c isCloseSign ts
  refine .look hopened (.look hclosed ?_)
  split
  · next opened closed =>
    split
    · exact steps_visitAll hv hr hw
    · next hlt =>
      exact steps_listBetween hc hv hr hw shape group (hopen _ rfl) (hclose _ rfl) (by omega)
  · exact steps_visitAll hv hr hw

theorem visits_list (hv : Follows c xs n visit) (hr : Row c n ts)
    (shape : ListShape) (group : Option Nat) :
    Visits c xs (leavesAll ts) (list visit kind ts shape group) :=
  steps_list hc hv hr False.elim shape group

end

end Lists

end CodeLayout.Annotate
