import CodeLayout.Proofs.Annotate.Layout

/-!
# Layouts with alignment groups

The constructs that make alignment groups, or line a sign up, do more than move along a path: they
change the groups and the waiting member, and they queue marks.  A relation `Admits` all of this if
it holds across paths, across changes of the groups alone, across the mark where a member starts,
and across a sign with the mark before it.  Then it holds for the visit of every whole tree, which
takes the leaves of the tree (`Admits.keeps_visitTree`).
-/

namespace CodeLayout

namespace Annotate

/-- The relation holds across whatever is done for alignment groups. -/
structure Admits (c : Context) (R : State → State → Prop) : Prop where
  path : ∀ {s s'}, @Path c.style R [] s [] s' → R s s'
  regroup : ∀ {s s' : State}, s'.items = s.items → s'.pending = s.pending → R s s'
  start : ∀ member, Relates c R (queueMember .alignStart member)
  sign : ∀ member {i : Nat} (opKind : OpKind), isBinding (c.tokens.getD i default).kind = true →
    Relates c R (do queueMember .align member; op i opKind)

namespace Admits

variable {c : Context} {R : State → State → Prop} {n : Nat} {visit : Visit} {kind : NodeKind}
  {t : Tree} {ts : List Tree} {ps : List (Pair c.style)} {is : List Nat} (hR : Admits c R)
include hR

theorem relates {α : Type} {m : Emit α} {left : α → List Nat} (hm : Laying c R is left [] [] m) :
    Relates c R m := hm.relates fun _ _ hpath => hR.path hpath

/-- `Relates` for a step that takes no leaves. -/
theorem relates_alone {α : Type} {m : Emit α} (hm : Laying c R [] (fun _ => []) [] [] m) :
    Relates c R m := hR.relates hm

/-! ## Groups -/

/-- `Lays` for a change of the groups and of the waiting member. -/
theorem lays_regroup {f : State → State}
    (hf : ∀ s, (f s).cursor = s.cursor ∧ (f s).items = s.items ∧ (f s).pending = s.pending) :
    Laying c R is (fun _ => is) ps ps (modify f : Emit Unit) := by
  refine .emitCall (fun s a s' hrun => ?_) (marks_modify hf).emits
  cases hrun
  exact hR.regroup (hf s).2.1 (hf s).2.2

theorem lays_newGroup {groupKind : GroupKind} :
    Laying c R is (fun _ => is) ps ps (newGroup groupKind) := by
  refine .look_bind looks_get fun _ => .bind (hR.lays_regroup fun _ => ⟨rfl, rfl, rfl⟩) fun _ => ?_
  exact .pure rfl

variable {group : Nat}

theorem lays_awaitMember {width : Option Nat} :
    Laying c R is (fun _ => is) ps ps (awaitMember group width t) := by
  refine .look_bind looks_get fun _ => .bind (hR.lays_regroup fun _ => ⟨rfl, rfl, rfl⟩) fun _ => ?_
  split
  · exact hR.lays_regroup fun _ => ⟨rfl, rfl, rfl⟩
  · exact .pure rfl

theorem lays_takeMember : Laying c R is (fun _ => is) ps ps (takeMember t) := by
  refine .look_bind looks_get fun _ => ?_
  split
  · refine .ite (.bind (hR.lays_regroup fun _ => ⟨rfl, rfl, rfl⟩) fun _ => ?_) (.pure rfl)
    exact .pure rfl
  · exact .pure rfl

theorem lays_joinGroup : Laying c R is (fun _ => is) ps ps (joinGroup group t) := by
  refine .look_bind looks_findLeaf? fun _ => .ite ?_ (.pure rfl)
  split
  · exact .look_bind looks_textOf fun _ => .look_bind .pure fun _ => hR.lays_awaitMember
  · exact .look_bind .pure fun _ => hR.lays_awaitMember

theorem lays_joinStatements {prev : Option Tree} {group : Option (Nat × AlignKey)} :
    Laying c R is (fun _ => is) ps ps (joinStatements prev group t) := by
  unfold joinStatements
  split
  · exact .pure rfl
  · next key target _ =>
    have hjoin {m : Emit Nat} (hm : Laying c R is (fun _ => is) ps ps m) (width : Option Nat) :
        Laying c R is (fun _ => is) ps ps (do
          let g ← m
          awaitMember g width target
          return some (g, key)) := .bind hm fun _ => .bind hR.lays_awaitMember fun _ => .pure rfl
    have hnew (width : Option Nat) := hjoin (m := newGroup .assignment) hR.lays_newGroup width
    refine .look_bind looks_findLeaf? fun _ => .ite (.pure rfl) ?_
    cases target.children.head? with
    | some lhs =>
      refine .look_bind looks_textOf fun _ => .look_bind .pure fun _ => ?_
      split
      · exact .look_bind looks_separated fun _ => .ite (hjoin (.pure rfl) _) (hnew _)
      · exact hnew _
    | none =>
      refine .look_bind .pure fun _ => ?_
      split
      · exact .look_bind looks_separated fun _ => .ite (hjoin (.pure rfl) _) (hnew _)
      · exact hnew _

/-! ## Trees -/

/-- `Lays` for a sign with the mark before it. -/
theorem lays_sign {i : Nat} (member : Option MemberRef) (opKind : OpKind)
    (hi : isBinding (c.token i).kind = true) :
    Lays c R [i] ps ps (do queueMember .align member; op i opKind) :=
  .call (hR.sign member opKind hi) <| .taken_after emits_queueAlign fun _ s a s' hrun =>
    ((show Lays c R [i] [] [] (op i opKind) from lays_between rfl rfl) s a s' hrun).2

section

variable {Q : NodeKind → List Tree → Prop} (hv : Keeps R Q c n visit) (hts : Rows Q n t.children)
include hv hts

theorem lays_aligned : Lays c R (Tree.leavesAll t.children) ps ps (aligned visit kind t) := by
  refine .bind hR.lays_takeMember fun member => ?_
  refine .optional (.emitCall (hR.start member) marks_queueAlignStart.emits) (.forM fun u hu => ?_)
  refine .known (runs_leafKind? c u) ?_
  cases u with
  | node k w cs => exact hv.lays (hts.mem hu)
  | leaf i w =>
    dsimp only [Tree.leafIndex?, Option.map_some]
    split
    · next hbinding => exact .at_leaf (hR.lays_sign member _ hbinding)
    · exact .at_leaf lays_leaf

theorem lays_matchArm : Lays c R (Tree.leavesAll t.children) ps ps (matchArm visit kind t) := by
  refine .bind hR.lays_takeMember fun member => ?_
  refine .optional (.emitCall (hR.start member) marks_queueAlignStart.emits) (.forM fun u hu => ?_)
  cases u with
  | node k w cs => exact hv.lays (hts.mem hu)
  | leaf i w =>
    refine .at_leaf (.kindAt_bind ?_)
    split
    · next harrow => exact hR.lays_sign member _ (by rw [harrow]; rfl)
    · exact lays_between rfl rfl
    · exact lays_leaf

end

/-- `visitTree` takes the leaves of a whole tree, and the relation holds across it. -/
theorem keeps_visitTree (n : Nat) :
    Keeps R (Tree.Whole (Parsed.kindOf c.tokens)) c n (visitTree n) := by
  have hkeeps {n : Nat}
      (htree : ∀ kind {t}, Wholes c n [t] → Lays c R t.leaves [] [] (visitTree n kind t)) :
      Keeps R (Tree.Whole (Parsed.kindOf c.tokens)) c n (visitTree n) := by
    refine ⟨fun h => h, fun kind t ht => hR.relates (htree kind ht),
      fun kind t ht s a s' hrun => (htree kind ht s a s' hrun).2, fun place _ _ hcs hsub => ?_⟩
    refine hR.relates (lays_statementsAfter (fun _ _ _ => ?_) (fun t ht => ?_) place none none)
    · exact hR.relates_alone hR.lays_joinStatements
    · exact htree _ (hcs.mem (hsub ht))
  induction n with
  | zero =>
    refine hkeeps fun kind t ht => ?_
    cases t with
    | leaf i w => exact .at_leaf lays_leaf
    | node k w cs => exact absurd ht.children.2.1 (Nat.lt_irrefl 0)
  | succ n ih =>
    refine hkeeps fun kind t ht => ?_
    cases t with
    | leaf i w => exact .at_leaf lays_leaf
    | node k w cs =>
      obtain ⟨hcs, -, hwhole⟩ := ht.children
      rw [Nat.add_sub_cancel] at hcs
      show Lays c _ _ [] [] (visitNode (visitTree n) kind k (.node k w cs))
      by_cases hk : aligns k = false
      · exact lays_visitNode ih ht hk kind
      · rw [Tree.leaves_node]
        cases k
        case assignExpr | arrayElement | constElement | propertyElement =>
          exact hR.lays_aligned (t := .node _ w cs) ih hcs
        case matchArm => exact hR.lays_matchArm (t := .node _ w cs) ih hcs
        case matchExpr =>
          refine lays_matchExpr (t := .node _ w cs) ih hcs hwhole (hR.relates_alone
            hR.lays_newGroup) fun g u hu _ => ?_
          have hvisit : Lays c R u.leaves [] [] (visitTree n .matchExpr u) := ih.lays (hcs.mem hu)
          exact hR.relates (.look_bind looks_armWidth? fun _ => .bind hR.lays_awaitMember fun _ => hvisit)
        case arrayLiteral | listExpr =>
          exact lays_arrayLiteral (t := .node _ w cs) ih hcs hwhole (hR.relates_alone
            hR.lays_newGroup) fun g u hu =>
              hR.relates (.bind hR.lays_joinGroup fun _ => ih.lays (hcs.mem hu))
        all_goals exact absurd rfl hk

end Admits

/-- Where nothing is asked of the visits, the relation `Admits` all that they do. -/
theorem admits_true (c : Context) : Admits c fun _ _ => True :=
  ⟨fun _ => trivial, fun _ _ => trivial, fun _ _ _ _ _ => trivial, fun _ _ _ _ _ _ _ _ => trivial⟩

end Annotate

end CodeLayout
