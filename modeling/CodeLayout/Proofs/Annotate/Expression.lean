import CodeLayout.Proofs.Annotate.Statement

/-!
# Expressions in step

Every layout of an expression visits its leaves in order.  The only signs a layout has to know are
the operators it widens the gap before: none of them is a tag.
-/

namespace CodeLayout.Annotate

open List
open CodeLayout.Tree (leavesAll leavesAll_cons leavesAll_nil leaves_leaf)

variable {V : Prop} {A : Nat → Prop} {c : Context} {xs : List Lexeme} {n : Nat} {visit : Visit}
  {kind : NodeKind} {t : Tree} {ts : List Tree}

/-! ## Operators -/

variable {k : Nat} {member : Option MemberRef}

theorem marks_queueAlignStart : Marks c (queueMember .alignStart member) := by
  cases member with
  | none => exact .pure
  | some m => exact marks_queue rfl rfl

theorem emits_queueAlign : Emits c k [] (queueMember .align member) := by
  cases member with
  | none => exact .pure
  | some m => exact emits_queue rfl

/-- `queueMember` with the mark of an operator widens the gap before the next leaf. -/
theorem Steps.align_bind {β : Type} {js : List Nat} {f : Unit → Emit β}
    (hf : Steps c xs True A js (f ())) :
    Steps c xs V A js (queueMember .align member >>= f) := by
  refine .emits_bind emits_queueAlign (fun s _ s' hrun _ hs => ?_) fun _ => hf
  cases member with
  | none =>
    cases hrun
    exact hs.mono fun _ => trivial
  | some m => exact hrun.tame_queue hs rfl nofun (fun _ _ => trivial) fun _ => trivial

section

variable (hc : Reading c xs) (hv : Follows c xs n visit)
include hc hv

theorem visits_aligned (hr : Row c n t.children) :
    Visits c xs (leavesAll t.children) (aligned visit kind t) := by
  refine .emit_bind marks_takeMember fun member => ?_
  refine .optional marks_queueAlignStart (visits_forM hr fun u _ hu => ?_)
  refine .look (goes_leafKind? c u) ?_
  split
  · next k i hkind hleaf =>
    obtain rfl := kind_of_leafKind hkind hleaf
    rw [leaves_of_leafIndex? hleaf]
    split
    · next hbinding =>
      refine .align_bind (steps_op hc fun hecho => ?_)
      rw [hecho] at hbinding
      cases hbinding
    · exact visits_leaf hc
  · exact hv.visits kind u hu

omit hc hv in
/-- `Visits` for a child that is a leaf, laid out in its own way, or a node. -/
theorem visits_leafOr (hv : Follows c xs n visit) (hr : Row c n [t]) {f : Nat → Emit Unit}
    (hf : ∀ i w, t = .leaf i w → Visits c xs [i] (f i)) :
    Visits c xs t.leaves (match t.leafIndex? with
      | some i => f i
      | none => visit kind t) := by
  split
  · next i hleaf =>
    obtain ⟨w, rfl⟩ := eq_leaf_of_leafIndex? hleaf
    rw [leaves_leaf]
    exact hf i w rfl
  · exact hv.visits kind t hr

/-- `binary` has no tag between two operands. -/
theorem visits_binary (hr : Row c n ts)
    (hformed : ∀ u, ts[1]? = some u → ¬ u.IsSign (Parsed.kindOf c.tokens) .openTagWithEcho) :
    Visits c xs (leavesAll ts) (binary visit kind ts) := by
  refine visits_forM_zipIdx hr 0 fun t k hk ht => visits_leafOr hv ht fun i w h => ?_
  subst h
  split
  · next hone =>
    obtain rfl : k = 1 := by simpa using hone
    refine .kindAt_bind (visits_op hc fun hecho => ?_)
    exact hformed _ hk (congrArg some hecho)
  · exact visits_leaf hc

variable {i : Nat}

section

variable (hr : Row c n ts)
include hr

/-- `unary` is laid out in step. -/
theorem visits_unary : Visits c xs (leavesAll ts) (unary visit kind ts) := by
  unfold unary
  split
  · next i w rest =>
    have hrest : Visits c xs (leavesAll rest) (visitAll visit kind rest) :=
      visits_visitAll hv hr.tail
    refine .leaf_cons hc hr (leaves_leaf i w) False.elim ?_
    refine .kindAt_bind (.emit_bind marks_peekSignificant fun _ => ?_)
    split
    · exact .role_bind hc (.of_visits hrest)
    · exact .of_visits hrest
  · exact visits_visitAll hv hr

/-- `trailing` is laid out in step, if the operator is no tag. -/
theorem visits_trailing
    (hformed : ∀ u, ts.getLast? = some u → ¬ u.IsSign (Parsed.kindOf c.tokens) .openTagWithEcho) :
    Visits c xs (leavesAll ts) (trailing visit kind ts) := by
  fun_induction trailing visit kind ts with
  | case1 => exact .nothing .pure
  | case2 i w =>
    rw [leavesAll_cons, leavesAll_nil, append_nil, leaves_leaf]
    exact visits_thenLeaf hc (ahead_of_ne fun hecho => hformed _ rfl (congrArg some hecho))
  | case3 t ts _ ih =>
    refine .cons hr (hv.visits kind t hr.head) fun _ => ih hr.tail fun u hu => hformed u ?_
    cases ts with
    | nil => cases hu
    | cons v vs => exact hu

theorem visits_ternaryParts (afterQuestion : Bool) :
    Visits c xs (leavesAll ts) (ternaryParts visit kind afterQuestion ts) := by
  induction ts generalizing afterQuestion with
  | nil => exact .nothing .pure
  | cons t ts ih =>
    have hrest (b : Bool) := ih hr.tail b
    rw [ternaryParts]
    refine .look (goes_leafKind? c t) ?_
    split
    · next i hkind hleaf =>
      have hquestion (short : Bool) : Visits c xs (leavesAll (t :: ts)) (do
          if short then thenLeaf (.beforeOp .ternary) i else op i .ternary
          ternaryParts visit kind true ts) := by
        have hleaves := leaves_of_leafIndex? hleaf
        have hne : (c.token i).kind ≠ .openTagWithEcho := by
          rw [kind_of_leafKind hkind hleaf]
          decide
        refine .ite (.cons hr ?_ fun _ => hrest true) (.cons hr ?_ fun _ => hrest true)
        · rw [hleaves]
          exact visits_thenLeaf hc (ahead_of_ne hne)
        · rw [hleaves]
          exact visits_op hc hne
      cases ts with
      | nil => exact .emit_bind .pure fun _ => hquestion _
      | cons u us => exact .emit_bind marks_leafKind? fun _ => .emit_bind .pure fun _ => hquestion _
    · next i hkind hleaf =>
      obtain ⟨w, rfl⟩ := eq_leaf_of_leafIndex? hleaf
      have hcolon : (c.token i).kind = .colon := Option.some.inj hkind
      have hne : (c.token i).kind ≠ .openTagWithEcho := by
        rw [hcolon]
        decide
      refine .ite (.cons hr ?_ fun _ => hrest false) (.cons hr ?_ fun _ => hrest false)
      · rw [leaves_leaf]
        exact visits_between hc (ahead_of_ne hne)
      · rw [leaves_leaf]
        exact visits_op hc hne
    · exact .cons hr (.unbroken (hv.visits kind t hr.head)) fun _ => hrest false

theorem visits_ternary : Visits c xs (leavesAll ts) (ternary visit kind ts) := by
  unfold ternary
  split
  · exact .nothing .pure
  · next t rest =>
    refine .cons hr (hv.visits kind t hr.head) fun _ => ?_
    exact visits_ternaryParts hc hv hr.tail false

theorem visits_delimited
    (paren : ParenKind) : Visits c xs (leavesAll ts) (delimited visit kind paren ts) := by
  refine visits_forM hr fun t _ ht => visits_leafOr hv ht fun i w _ => .kindAt_bind ?_
  split
  · exact visits_leafThen hc
  · split
    · next hk => exact visits_closeParen hc hk
    · exact visits_leaf hc

/-! ## Calls and access -/

theorem visits_argList
    (parent : NodeKind) : Visits c xs (leavesAll ts) (argList visit parent kind ts) :=
  .read_bind (fun _ => rfl) (visits_list hc hv hr _ none)

theorem visits_namedArg : Visits c xs (leavesAll ts) (namedArg visit kind ts) := by
  refine visits_forM_zipIdx hr 0 fun t k _ ht => visits_leafOr hv ht fun i w h => ?_
  subst h
  refine .kindAt_bind ?_
  split
  · next hk =>
    have hcolon : (c.token i).kind = .colon := by
      simp only [Bool.and_eq_true, beq_iff_eq] at hk
      exact hk.2
    exact visits_between hc (ahead_of_ne (by rw [hcolon]; decide))
  · exact visits_leaf hc

end

omit hc hv in
/-- `memberSign` is laid out in step, with a role on both sides. -/
theorem visits_memberSign (hc : Reading c xs) (chained : Bool) :
    Visits c xs [i] (memberSign chained i) := by
  refine .kindAt_bind ?_
  have hsign {k : TokenKind} (hk : (c.token i).kind = k) (hne : k ≠ .openTagWithEcho)
      (r r' : Role) : Visits c xs [i] (between r i r') :=
    visits_between hc (ahead_of_ne (hk ▸ hne))
  split
  · next hk => exact .ite (hsign hk (by decide) _ _) (hsign hk (by decide) _ _)
  · next hk => exact .ite (hsign hk (by decide) _ _) (hsign hk (by decide) _ _)
  · next hk => exact hsign hk (by decide) _ _
  · exact visits_leaf hc

theorem visits_memberAccess (hr : Row c n ts) :
    Visits c xs (leavesAll ts) (memberAccess visit kind ts) := by
  refine visits_forM_zipIdx hr 0 fun t k _ ht => visits_leafOr hv ht fun i w _ => ?_
  exact .ite (visits_memberSign hc _) (visits_leaf hc)

theorem visits_indexExpr (hr : Row c n ts) :
    Visits c xs (leavesAll ts) (indexExpr visit kind ts) := by
  refine visits_forM_zipIdx hr 0 fun t k _ ht => .look (goes_leafKind? c t) ?_
  split
  · next i hkind hleaf =>
    rw [leaves_of_leafIndex? hleaf]
    exact .ite (visits_leafThen hc) (visits_leaf hc)
  · next i hkind hleaf =>
    rw [leaves_of_leafIndex? hleaf]
    exact visits_closeParen hc (by rw [kind_of_leafKind hkind hleaf]; rfl)
  · exact hv.visits kind t ht

theorem visits_anonClass (hr : Row c n ts) :
    Visits c xs (leavesAll ts) (anonClass visit kind ts) := by
  unfold anonClass
  split
  · next i w rest =>
    have hrest : Visits c xs (leavesAll rest) (visitAll visit kind rest) :=
      visits_visitAll hv hr.tail
    refine .cons_past hr (.at_leaf (visits_leaf hc)) (.inl (by simp)) fun _ => ?_
    exact .role_if (fun _ => id) (.of_visits hrest)
  · exact visits_visitAll hv hr

/-! ## Arrays and choices by value -/

/-- The elements of an array, which make a group if some of them have keys. -/
def arrayElements (visit : Visit) (kind : NodeKind) (t : Tree) (shape : ListShape) : Emit Unit := do
  let keyed ← t.childNodes.anyM fun e => do
    return e.isKind .arrayElement && (← findLeaf? e .doubleArrow).isSome
  let group ← if keyed && (← isMultiline t) then some <$> newGroup .arrayInit else pure none
  list visit kind t.children shape group

theorem visits_arrayLiteral (hr : Row c n t.children) :
    Visits c xs (leavesAll t.children) (arrayLiteral visit kind t) := by
  have hlist (shape : ListShape) :
      Visits c xs (leavesAll t.children) (arrayElements visit kind t shape) := by
    refine .emit_bind (marks_anyM fun _ => .mark_bind marks_findLeaf? fun _ => .pure) fun _ => ?_
    refine .emit_bind marks_isMultiline fun _ => ?_
    refine .either ?_ .pure fun group => visits_list hc hv hr _ group
    exact .mark_bind marks_newGroup fun _ => .pure
  refine .read_bind (fun _ => rfl) ?_
  cases t.children.head? with
  | none => exact .emit_bind .pure fun _ => hlist _
  | some u => exact .emit_bind marks_leafKind? fun _ => .emit_bind .pure fun _ => hlist _

omit hc hv in
theorem marks_armWidth? {arm : Tree} : Marks c (armWidth? arm) := by
  refine .read_bind (fun _ => rfl) <| .mark_bind marks_findLeaf? fun _ => ?_
  split
  · exact .pure
  · exact .pure

theorem visits_matchParts (hr : Row c n ts)
    (group : Option Nat) (inSubject : Bool) :
    Visits c xs (leavesAll ts) (matchParts visit kind group inSubject ts) := by
  induction ts generalizing inSubject with
  | nil => exact .nothing .pure
  | cons t ts ih =>
    have hrest (b : Bool) := ih hr.tail b
    cases t with
    | node k w cs =>
      have hvisit : Visits c xs (leavesAll (.node k w cs :: ts)) (do
          visit kind (.node k w cs)
          matchParts visit kind group inSubject ts) :=
        .cons hr (hv.visits kind _ hr.head) fun _ => hrest _
      unfold matchParts
      refine .ite ?_ hvisit
      split
      · exact .emit_bind marks_armWidth? fun _ => .emit_bind marks_awaitMember fun _ => hvisit
      · exact hvisit
    | leaf i w =>
      rw [matchParts]
      refine .read_bind (fun _ => rfl) (.kindAt_bind ?_)
      dsimp only
      split
      · next hk =>
        exact .cons hr (.at_leaf (visits_openParen hc (by rw [hk]; rfl))) fun _ => hrest _
      · next hk =>
        exact .cons hr (.at_leaf (visits_closeParen hc (by rw [hk]; rfl))) fun _ => hrest _
      · next hk =>
        refine .cons_past hr (.at_leaf ?_) (.inl (by simp)) fun _ => ?_
        · exact visits_thenLeaf hc (ahead_of_ne (by rw [hk]; decide))
        · exact .emit_bind marks_indent fun _ => .role_past (fun _ => id) (.of_visits (hrest _))
      · next hk =>
        refine .emit_bind marks_dedentBefore fun _ => .cons hr (.at_leaf ?_) fun _ => hrest _
        exact visits_thenLeaf hc (ahead_of_ne (by rw [hk]; decide))
      · next hk =>
        have hcomma : Ahead c i .beforeComma := ahead_of_ne (by rw [hk]; decide)
        refine .cons_past hr (.at_leaf (visits_thenLeaf hc hcomma)) (.inl (by simp)) fun _ => ?_
        exact .role_if (fun _ => id) (.of_visits (hrest _))
      · exact .cons hr (.at_leaf (visits_leaf hc)) fun _ => hrest _

theorem visits_matchExpr (hr : Row c n t.children) :
    Visits c xs (leavesAll t.children) (matchExpr visit kind t) := by
  unfold matchExpr
  generalize t.childNodes.any (·.isKind .matchArm) = hasArms
  generalize t.children = ts at hr ⊢
  cases ts with
  | nil => exact .nothing .pure
  | cons word rest =>
    refine .cons hr (hv.visits kind word hr.head) fun _ => ?_
    refine .either ?_ .pure fun group => visits_matchParts hc hv hr.tail group true
    exact .mark_bind marks_newGroup fun _ => .pure

theorem visits_matchArm (hr : Row c n t.children) :
    Visits c xs (leavesAll t.children) (matchArm visit kind t) := by
  refine .emit_bind marks_takeMember fun member => .optional marks_queueAlignStart ?_
  refine visits_forM hr fun u _ hu => ?_
  split
  · rw [leaves_leaf]
    refine .kindAt_bind ?_
    split
    · next hk => exact .align_bind (steps_op hc (by rw [hk]; decide))
    · next hk => exact visits_comma hc hk
    · exact visits_leaf hc
  · exact hv.visits kind _ hu

/-! ## Closures -/

theorem visits_closure (hr : Row c n ts) :
    Visits c xs (leavesAll ts) (closure visit kind ts) := by
  refine visits_forM hr fun t _ ht => ?_
  split
  · exact visits_attributes hv ht kind
  · exact visits_ownBlock hc hv ht rfl .function
  · exact hv.visits kind _ ht
  · rw [leaves_leaf]
    refine .kindAt_bind ?_
    split
    · exact visits_leafThen hc
    · next hk => exact visits_op hc (by rw [hk]; decide)
    · exact visits_leaf hc

theorem visits_closureUse (hr : Row c n ts) (hled : Tree.Led (Parsed.kindOf c.tokens) ts) :
    Visits c xs (leavesAll ts) (closureUse visit kind ts) :=
  .before_open (.read_bind (fun _ => rfl) (steps_list hc hv hr (fun _ => hled) _ none))

end

end CodeLayout.Annotate
