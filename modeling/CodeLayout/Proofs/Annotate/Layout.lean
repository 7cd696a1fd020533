import CodeLayout.Proofs.Annotate.Blocks

/-!
# Constructs as paths

Expressions and declarations are laid out as paths too, and with them all nodes that line nothing up
(`lays_visitNode`).  So a whole program is a path (`path_program`).
-/

namespace CodeLayout.Annotate

open List
open CodeLayout.Tree (Cut Whole braces leavesAll listEnds)
open Parsed (kindOf ofTokens)

variable {R : State → State → Prop} {Q : NodeKind → List Tree → Prop} {c : Context} {n : Nat}
  {visit : Visit} {kind : NodeKind} {t : Tree} {ts : List Tree} {ps : List (Pair c.style)} {is : List Nat}

section

variable (hv : Keeps R Q c n visit)
include hv

section

variable (hts : Rows Q n ts)
include hts

/-! ## Expressions -/

theorem lays_binary : Lays c R (leavesAll ts) ps ps (binary visit kind ts) := by
  refine .forM_zipIdx (fun _ ht _ => lays_leafOr hv (hts.mem ht) fun _ => ?_) 0
  exact .ite (.kindAt_bind (lays_between rfl rfl)) lays_leaf

theorem lays_unary : Lays c R (leavesAll ts) ps ps (unary visit kind ts) := by
  unfold unary
  split
  · refine .token lays_leaf fun _ => .kindAt_bind (.look_bind looks_peekSignificant fun _ => ?_)
    exact .optional (lays_role rfl) (lays_visitAll hv hts.tail)
  · exact lays_visitAll hv hts

theorem lays_trailing : Lays c R (leavesAll ts) ps ps (trailing visit kind ts) := by
  fun_induction trailing visit kind ts with
  | case1 => exact .pure rfl
  | case2 i w => exact .one (.at_leaf (lays_thenLeaf rfl))
  | case3 t ts _ ih => exact .cons (hv.lays hts.head) fun _ => ih hts.tail

theorem lays_ternaryParts (afterQuestion : Bool) :
    Lays c R (leavesAll ts) ps ps (ternaryParts visit kind afterQuestion ts) := by
  induction ts generalizing afterQuestion with
  | nil => exact .pure rfl
  | cons t ts ih =>
    have hrest (b : Bool) := ih hts.tail b
    rw [ternaryParts]
    refine .look_bind looks_leafKind? fun _ => ?_
    split
    · next i hleaf =>
      have hquestion (short : Bool) : Lays c R (leavesAll (t :: ts)) ps ps (do
          if short then thenLeaf (.beforeOp .ternary) i else op i .ternary
          ternaryParts visit kind true ts) :=
        .ite (.cons (.at_sign hleaf (lays_thenLeaf rfl)) fun _ => hrest true)
          (.cons (.at_sign hleaf (lays_between rfl rfl)) fun _ => hrest true)
      cases ts with
      | nil => exact .look_bind .pure fun _ => hquestion _
      | cons u us => exact .look_bind looks_leafKind? fun _ => .look_bind .pure fun _ => hquestion _
    · next i hleaf =>
      exact .ite (.cons (.at_sign hleaf (lays_between rfl rfl)) fun _ => hrest false)
        (.cons (.at_sign hleaf (lays_between rfl rfl)) fun _ => hrest false)
    · exact .cons (.unbroken fun _ => hv.lays hts.head) fun _ => hrest false

theorem lays_ternary : Lays c R (leavesAll ts) ps ps (ternary visit kind ts) := by
  unfold ternary
  split
  · exact .pure rfl
  · exact .cons (hv.lays hts.head) fun _ => lays_ternaryParts hv hts.tail false

theorem lays_delimited (paren : ParenKind) :
    Lays c R (leavesAll ts) ps ps (delimited visit kind paren ts) := by
  refine .forM fun t ht => lays_leafOr hv (hts.mem ht) fun i => .kindAt_bind ?_
  exact .ite (lays_leafThen rfl) (.ite (lays_thenLeaf rfl) lays_leaf)

theorem lays_namedArg : Lays c R (leavesAll ts) ps ps (namedArg visit kind ts) := by
  refine .forM_zipIdx (fun t ht k => lays_leafOr hv (hts.mem ht) fun i => ?_) 0
  exact .kindAt_bind (.ite (lays_between rfl rfl) lays_leaf)

omit hv in
omit hts in
theorem lays_memberSign {i : Nat} (chained : Bool) : Lays c R [i] ps ps (memberSign chained i) := by
  refine .kindAt_bind ?_
  split
  · exact .ite (lays_between rfl rfl) (lays_between rfl rfl)
  · exact .ite (lays_between rfl rfl) (lays_between rfl rfl)
  · exact lays_between rfl rfl
  · exact lays_leaf

theorem lays_memberAccess : Lays c R (leavesAll ts) ps ps (memberAccess visit kind ts) := by
  refine .forM_zipIdx (fun _ ht _ => lays_leafOr hv (hts.mem ht) fun _ => ?_) 0
  exact .ite (lays_memberSign _) lays_leaf

theorem lays_indexExpr : Lays c R (leavesAll ts) ps ps (indexExpr visit kind ts) := by
  refine .forM_zipIdx (fun t ht k => .look_bind looks_leafKind? fun _ => ?_) 0
  split
  · next hleaf => exact .at_sign hleaf (.ite (lays_leafThen rfl) lays_leaf)
  · next hleaf => exact .at_sign hleaf (lays_thenLeaf rfl)
  · exact hv.lays (hts.mem ht)

theorem lays_anonClass : Lays c R (leavesAll ts) ps ps (anonClass visit kind ts) := by
  unfold anonClass
  split
  · refine .token lays_leaf fun _ => ?_
    exact .optional (lays_role rfl) (lays_visitAll hv hts.tail)
  · exact lays_visitAll hv hts

section Match

variable {group : Option Nat} {qs : List (Pair c.style)} {rest subject arms : List Tree} {opening closing : Tree}

/-- `matchParts` opens and closes nothing for the parts that are not braces. -/
theorem lays_matchParts_append (hnone : ∀ t ∈ ts, ¬ t.IsOneOf (kindOf c.tokens) braces)
    (harm : ∀ g ∈ group, ∀ t ∈ ts, t.isKind .matchArm = true → Relates c R (do
      awaitMember g (← armWidth? t) t
      visit kind t))
    (hrest : ∀ inSubject,
      Lays c R (leavesAll rest) ps qs (matchParts visit kind group inSubject rest))
    (inSubject : Bool) : Lays c R (leavesAll (ts ++ rest)) ps qs
      (matchParts visit kind group inSubject (ts ++ rest)) := by
  induction ts generalizing inSubject with
  | nil => exact hrest inSubject
  | cons t ts ih =>
    obtain ⟨ht, hnone⟩ := forall_mem_cons.mp hnone
    have hrest (b : Bool) := ih hts.tail hnone
      (fun g hg u hu => harm g hg u (mem_cons_of_mem t hu)) b
    rw [cons_append]
    cases t with
    | node k w cs =>
      have hvisit : Lays c R (leavesAll (.node k w cs :: (ts ++ rest))) ps qs (do
          visit kind (.node k w cs)
          matchParts visit kind group inSubject (ts ++ rest)) :=
        .cons (hv.lays hts.head) fun _ => hrest _
      unfold matchParts
      split
      · next hkind =>
        cases group with
        | none => exact hvisit
        | some g =>
          have htaken : Relates c (Taken c (Tree.leaves (.node k w cs)) []) (do
              awaitMember g (← armWidth? (.node k w cs)) (.node k w cs)
              visit kind (.node k w cs)) := by
            refine .taken_after marks_armWidth?.emits fun _ => .taken_after marks_awaitMember.emits fun _ => ?_
            exact hv.takes kind (hts.head.imp hv.whole)
          have hcall : Lays c R (leavesAll (.node k w cs :: (ts ++ rest))) ps qs ((do
              awaitMember g (← armWidth? (.node k w cs)) (.node k w cs)
              visit kind (.node k w cs)) >>= fun _ =>
                matchParts visit kind (some g) inSubject (ts ++ rest)) :=
            .cons (.call (harm g rfl _ mem_cons_self hkind) htaken) fun _ => hrest inSubject
          simpa only [bind_assoc] using hcall
      · exact hvisit
    | leaf i w =>
      have hkind {k : TokenKind} (hk : k ∈ braces) : (c.token i).kind ≠ k :=
        fun h => ht ⟨k, hk, congrArg some h⟩
      rw [matchParts]
      refine .read_bind (.kindAt_bind ?_)
      dsimp only
      split
      · exact .token (lays_between rfl rfl) fun _ => hrest _
      · exact .token (lays_thenLeaf rfl) fun _ => hrest _
      · next h => exact absurd h (hkind (by decide))
      · next h => exact absurd h (hkind (by decide))
      · exact .token (lays_thenLeaf rfl) fun _ => .optional (lays_role rfl) (hrest _)
      · exact .token lays_leaf fun _ => hrest _

omit hts in
/-- `matchParts` after the keyword of a choice by value, with its braces. -/
theorem lays_matchParts (hts : Rows Q n (subject ++ opening :: (arms ++ [closing])))
    (hopening : opening.IsSign (kindOf c.tokens) .blockBegin)
    (hclosing : closing.IsSign (kindOf c.tokens) .blockEnd)
    (hnone : ∀ t ∈ subject ++ arms, ¬ t.IsOneOf (kindOf c.tokens) braces)
    (harm : ∀ g ∈ group, ∀ t ∈ subject ++ arms, t.isKind .matchArm = true → Relates c R (do
      awaitMember g (← armWidth? t) t
      visit kind t)) :
    Lays c R (leavesAll (subject ++ opening :: (arms ++ [closing]))) ps ps
      (matchParts visit kind group true (subject ++ opening :: (arms ++ [closing]))) := by
  obtain ⟨i, w, rfl, hi⟩ := eq_leaf_of_isOneOf ⟨_, mem_singleton_self _, hopening⟩
  obtain ⟨j, v, rfl, hj⟩ := eq_leaf_of_isOneOf ⟨_, mem_singleton_self _, hclosing⟩
  obtain ⟨hsubject, harms⟩ := forall_mem_append.mp hnone
  refine lays_matchParts_append hv hts.left hsubject
    (fun g hg t ht => harm g hg t (mem_append_left _ ht)) (fun inSubject => ?_) true
  rw [matchParts]
  refine .read_bind (.kindAt_bind ?_)
  rw [mem_singleton.mp hi]
  refine .token (lays_thenLeaf rfl) fun _ => .bind (lays_start (.indent _ Style.indentSize_mem)) fun _ => ?_
  refine .bind (lays_start (.brace .matchArms)) fun _ => ?_
  refine lays_matchParts_append hv hts.right.tail.left harms
    (fun g hg t ht => harm g hg t (mem_append_right _ ht)) (fun inSubject => ?_) inSubject
  rw [matchParts]
  refine .read_bind (.kindAt_bind ?_)
  rw [mem_singleton.mp hj]
  refine .swap (.bind (lays_stopLater (.indent _ _)) fun _ => ?_)
  refine .token (.bind (lays_stopLater (.brace .matchArms)) fun _ => lays_leaf) fun _ => ?_
  rw [matchParts]
  exact .pure rfl

end Match

omit hts in
/-- `arrayLiteral`, given what its group and the elements that join it do. -/
theorem lays_arrayLiteral (hts : Rows Q n t.children)
    (hend : ∃ front closing, t.children = front ++ [closing] ∧
      closing.IsOneOf (kindOf c.tokens) listEnds)
    (hnew : Relates c R (newGroup .arrayInit))
    (hjoin : ∀ g, ∀ u ∈ t.children, Relates c R (do joinGroup g u; visit kind u)) :
    Lays c R (leavesAll t.children) ps ps (arrayLiteral visit kind t) := by
  have hlist (shape : ListShape) (hshape : shape.indent ∈ c.style.indentWidths) :
      Lays c R (leavesAll t.children) ps ps (arrayElements visit kind t shape) := by
    have helements (group : Option Nat) :
        Lays c R (leavesAll t.children) ps ps (list visit kind t.children shape group) :=
      lays_list hv hts hend shape hshape fun g _ => hjoin g
    refine .look_bind (.anyM fun _ => .bind looks_findLeaf? fun _ => .pure) fun _ => ?_
    refine .look_bind looks_isMultiline fun _ => .ite ?_ (.look_bind .pure fun _ => helements _)
    exact .bind (lays_someGroup hnew) fun _ => helements _
  have hshape (bracket : Bool) : (if bracket = true then (ListShape.of c.style .array
      .arrayBrackets).hugging else .of c.style .array .arrayDecl).indent ∈ c.style.indentWidths := by
    cases bracket <;> exact ListShape.indent_mem _ _
  refine .read_bind ?_
  cases t.children.head? with
  | none => exact .look_bind .pure fun _ => hlist _ (hshape _)
  | some u =>
    exact .look_bind looks_leafKind? fun _ => .look_bind .pure fun _ => hlist _ (hshape _)

omit hts in
/-- `matchExpr`, given what its group and the arms that join it do. -/
theorem lays_matchExpr (hts : Rows Q n t.children)
    (hwhole : Whole (kindOf c.tokens) .matchExpr t.children)
    (hnew : Relates c R (newGroup .matchArm))
    (harm : ∀ g, ∀ u ∈ t.children, u.isKind .matchArm = true → Relates c R (do
      awaitMember g (← armWidth? u) u
      visit kind u)) :
    Lays c R (leavesAll t.children) ps ps (matchExpr visit kind t) := by
  unfold matchExpr
  generalize t.childNodes.any (·.isKind .matchArm) = hasArms
  obtain ⟨word, subject, opening, arms, closing, heq, hopening, hclosing, hnone⟩ := hwhole
  rw [heq] at hts harm ⊢
  have hparts (group : Option Nat) :
      Lays c R (leavesAll (subject ++ opening :: (arms ++ [closing]))) ps ps
        (matchParts visit kind group true (subject ++ opening :: (arms ++ [closing]))) := by
    refine lays_matchParts hv hts.tail hopening hclosing hnone fun g _ u hu => ?_
    refine harm g u (mem_cons_of_mem _ ?_)
    rcases mem_append.mp hu with h | h
    · exact mem_append_left _ h
    · exact mem_append_right _ (mem_cons_of_mem _ (mem_append_left _ h))
  refine .cons (hv.lays hts.head) fun _ => .ite ?_ (.look_bind .pure fun _ => hparts _)
  exact .bind (lays_someGroup hnew) fun _ => hparts _

theorem lays_closure : Lays c R (leavesAll ts) ps ps (closure visit kind ts) := by
  refine .forM fun t ht => ?_
  split
  · exact .bind (hv.lays (hts.mem ht)) fun _ => lays_role rfl
  · exact lays_ownBlock hv (hts.mem ht) rfl .function
  · exact hv.lays (hts.mem ht)
  · refine .at_leaf (.kindAt_bind ?_)
    split
    · exact lays_leafThen rfl
    · exact lays_between rfl rfl
    · exact lays_leaf

/-! ## Declarations -/

theorem lays_typeList : Lays c R (leavesAll ts) ps ps (typeList visit kind ts) := by
  refine .forM fun t ht => .look_bind looks_leafKind? fun _ => ?_
  split
  · next hleaf => exact .at_sign hleaf (lays_between rfl rfl)
  · next hleaf => exact .at_sign hleaf (lays_between rfl rfl)
  · exact lays_typePart hv (hts.mem ht)

theorem lays_colonType : Lays c R (leavesAll ts) ps ps (colonType visit kind ts) := by
  refine .forM fun t ht => .look_bind looks_leafKind? fun _ => ?_
  split
  · next hleaf => exact .at_sign hleaf (lays_between rfl rfl)
  · exact lays_typePart hv (hts.mem ht)

theorem lays_functionParts {brace : Role} (hbrace : (ItemKind.role brace).isNeutral = true) :
    Lays c R (leavesAll ts) ps ps (functionParts visit kind brace ts) := by
  induction ts with
  | nil => exact .pure rfl
  | cons t ts ih =>
    have hrest := ih hts.tail
    rw [functionParts]
    dsimp only
    refine (lays_declarationFront hv hts.head _ ts).cons hrest ?_
    split
    · exact .cons (lays_blockOf hv hts.head rfl .function (isNeutral_some hbrace)) fun _ => hrest
    · exact .cons (hv.lays hts.head) fun _ => hrest
    · refine .kindAt_bind ?_
      split
      · exact .token (lays_leafThen rfl) fun _ => hrest
      · exact .token (lays_between rfl rfl) fun _ => hrest
      · exact .token lays_leaf fun _ => hrest

omit hts in
theorem lays_functionDecl (hts : Rows Q n t.children) :
    Lays c R (leavesAll t.children) ps ps (functionDecl visit kind t) := by
  unfold functionDecl
  have hparts (kept : Bool) : Lays c R (leavesAll t.children) ps ps (functionParts visit kind
      (if kept then .keptLeftBrace .function else .beforeLeftBrace .function) t.children) :=
    lays_functionParts hv hts (isNeutral_ite rfl rfl)
  cases t.findChild? .paramList with
  | none => exact .look_bind .pure fun _ => .read_bind (hparts _)
  | some params => exact .look_bind looks_isMultiline fun _ => .read_bind (hparts _)

/-- `typedParts` of a declaration with a type, given what its own signs do. -/
theorem lays_typedParts {own : Nat → Emit Bool} (hown : ∀ i, LaysIf c R [i] ps (own i)) (member : Bool)
    (toName : Nat) :
    Lays c R (leavesAll ts) ps ps (typedParts visit kind member own toName ts) := by
  induction ts generalizing toName with
  | nil => exact .pure rfl
  | cons t ts ih =>
    have hrest := ih hts.tail (toName - 1)
    rw [typedParts]
    dsimp only
    refine (lays_declarationFront hv hts.head _ ts).cons hrest ?_
    have hother : Lays c R (leavesAll (t :: ts)) ps ps (do
        if toName > 0 then
          typePart visit kind t
          if toName == 1 then role .afterType
        else visit kind t
        typedParts visit kind member own (toName - 1) ts) := by
      refine .ite ?_ (.cons (hv.lays hts.head) fun _ => hrest)
      exact .cons (lays_typePart hv hts.head) fun _ => .optional (lays_role rfl) hrest
    split
    · next i hleaf =>
      have hsign : LaysIf c R t.leaves ps (own i) := by
        rw [leaves_of_leafIndex? hleaf]
        exact hown i
      exact hsign.cons hrest hother
    · exact LaysIf.refused.cons hrest hother

omit hv in
omit hts in
theorem lays_paramSign (i : Nat) : LaysIf c R [i] ps (paramSign i) :=
  .kindAt_bind (.ite (LaysIf.done (lays_between rfl rfl)) LaysIf.refused)

theorem lays_param : Lays c R (leavesAll ts) ps ps (param visit kind ts) :=
  .look_bind looks_findSign? fun _ => lays_typedParts hv hts lays_paramSign _ _

theorem lays_typeDecl : Lays c R (leavesAll ts) ps ps (typeDecl visit kind ts) := by
  induction ts with
  | nil => exact .pure rfl
  | cons t ts ih =>
    have hrest := ih hts.tail
    rw [typeDecl]
    dsimp only
    refine (lays_declarationFront hv hts.head _ ts).cons hrest ?_
    cases t with
    | leaf i w =>
      refine .kindAt_bind (.ite ?_ ?_)
      · exact .token (lays_leafThen rfl) fun _ => hrest
      · exact .token lays_leaf fun _ => hrest
    | node k w cs => exact .cons (hv.lays hts.head) fun _ => hrest

theorem lays_inheritanceNames (front : Role)
    (hnone : ∀ t ∈ ts, ¬ t.IsOneOf (kindOf c.tokens) Tree.inheritanceWords) :
    Lays c R (leavesAll ts) ps ps (inheritanceParts visit kind front ts) := by
  induction ts with
  | nil => exact .pure rfl
  | cons t ts ih =>
    obtain ⟨ht, hnone⟩ := forall_mem_cons.mp hnone
    have hrest := ih hts.tail hnone
    cases t with
    | node k w cs => exact .cons (hv.lays hts.head) fun _ => hrest
    | leaf i w =>
      have hkind {k : TokenKind} (hk : k ∈ Tree.inheritanceWords) :
          (c.token i).kind ≠ k := fun h => ht ⟨k, hk, congrArg some h⟩
      rw [inheritanceParts]
      refine .kindAt_bind ?_
      split
      · next h => exact absurd h (hkind (by decide))
      · next h => exact absurd h (hkind (by decide))
      · exact .token (lays_between rfl rfl) fun _ => .optional (lays_role rfl) hrest
      · exact .token lays_leaf fun _ => hrest

/-- `inheritanceClause` ends the anchor behind its word. -/
theorem lays_inheritanceClause (hwhole : Whole (kindOf c.tokens) .extendsClause ts) :
    Lays c R (leavesAll ts) ps ps (inheritanceClause visit kind ts) := by
  obtain ⟨word, names, rfl, hword, hnames⟩ := hwhole
  obtain ⟨i, w, rfl, hi⟩ := eq_leaf_of_isOneOf hword
  refine .read_bind (.bind (lays_start (.indent _ Style.continuationSize_mem)) fun _ => ?_)
  have hparts {qs : List (Pair c.style)} {front : Role} (hfront : (ItemKind.role front).isNeutral = true) :
      Lays c R (leavesAll (.leaf i w :: names)) qs (.anchor :: qs)
        (inheritanceParts visit kind front (.leaf i w :: names)) := by
    have hrest : Lays c R (leavesAll names) (.anchor :: qs) (.anchor :: qs)
        (inheritanceParts visit kind front names) :=
      lays_inheritanceNames hv hts.tail front hnames
    rw [inheritanceParts]
    refine .kindAt_bind ?_
    rcases mem_cons.mp hi with h | h
    · rw [h]
      exact .token (lays_between hfront rfl) fun _ => .bind (lays_start .anchor) fun _ => hrest
    · rw [mem_singleton.mp h]
      exact .token (lays_between hfront rfl) fun _ => .bind (lays_start .anchor) fun _ => hrest
  refine .bind (hparts (isNeutral_ite rfl rfl)) fun _ => ?_
  exact .bind (lays_stop .anchor) fun _ => lays_stop (.indent _ _)

omit hv in
omit hts in
theorem lays_fieldSign (i : Nat) : LaysIf c R [i] ps (fieldSign i) := by
  refine .kindAt_bind ?_
  split
  · exact LaysIf.done (lays_leafThen rfl)
  · exact LaysIf.done (lays_between rfl rfl)
  · exact LaysIf.done (lays_between rfl rfl)
  · exact LaysIf.refused

theorem lays_traitUse : Lays c R (leavesAll ts) ps ps (traitUse visit kind ts) := by
  refine .forM fun t ht => ?_
  cases t with
  | leaf i w => exact .at_leaf lays_walkLeaf
  | node k w cs => exact hv.lays (hts.mem ht)

omit hts in
/-- `traitUseParts` behind the opening brace closes anything only at the last brace. -/
theorem lays_traitUseParts {size : Nat} (hsize : size ∈ c.style.indentWidths) {closing : Tree}
    (hts : Rows Q n (ts ++ [closing]))
    (hclosing : closing.IsSign (kindOf c.tokens) .blockEnd) :
    Lays c R (leavesAll (ts ++ [closing])) (.indent size hsize :: .brace .useTrait :: ps) ps
      (traitUseParts visit kind size false (ts ++ [closing])) := by
  induction ts with
  | nil =>
    obtain ⟨j, v, rfl, hj⟩ := eq_leaf_of_isOneOf ⟨_, mem_singleton_self _, hclosing⟩
    rw [nil_append, traitUseParts]
    refine .kindAt_bind ?_
    rw [mem_singleton.mp hj]
    refine .bind (lays_stopLater (.indent _ _)) fun _ => ?_
    refine .token (.bind (lays_stopLater (.brace .useTrait)) fun _ => lays_leaf) fun _ => ?_
    rw [traitUseParts]
    exact .pure rfl
  | cons t ts ih =>
    have hrest := ih hts.tail
    rw [cons_append]
    cases t with
    | node k w cs => exact .cons (hv.lays hts.head) fun _ => hrest
    | leaf i w =>
      rw [traitUseParts]
      refine .kindAt_bind ?_
      split
      · next h => cases h
      · next h => exact absurd h (by simp)
      · refine .token (lays_between rfl rfl) fun _ => .ite ?_ hrest
        exact .bind (lays_role rfl) fun _ => hrest
      · exact .token (lays_between rfl rfl) fun _ => hrest
      · exact .token lays_leaf fun _ => hrest

theorem lays_traitUseBody (hwhole : Whole (kindOf c.tokens) .traitUseBody ts) :
    Lays c R (leavesAll ts) ps ps (traitUseBody visit kind ts) := by
  obtain ⟨opening, rules, closing, rfl, hopening, hclosing⟩ := hwhole
  obtain ⟨i, w, rfl, hi⟩ := eq_leaf_of_isOneOf ⟨_, mem_singleton_self _, hopening⟩
  refine .read_bind ?_
  rw [traitUseParts]
  refine .kindAt_bind ?_
  rw [mem_singleton.mp hi]
  refine .token (lays_thenLeaf rfl) fun _ => .bind (lays_start (.indent _ Style.indentSize_mem)) fun _ => ?_
  exact .bind (lays_start (.brace .useTrait)) fun _ =>
    .swap (lays_traitUseParts hv _ hts.tail hclosing)

end

/-! ## Nodes -/

/-- `visitNode` lays out a node that lines nothing up as a path that takes its leaves and closes all
that it opens. -/
theorem lays_visitNode {w : Nat} {cs : List Tree}
    (ht : Rows Q (n + 1) [.node kind w cs]) (hkind : aligns kind = false) (parent : NodeKind) :
    Lays c R (Tree.leaves (.node kind w cs)) ps ps
      (visitNode visit parent kind (.node kind w cs)) := by
  obtain ⟨hcs, -, hQ⟩ := ht.children
  rw [Nat.add_sub_cancel] at hcs
  rw [Tree.leaves_node]
  have hwhole := hv.whole hQ
  cases kind
  case error => exact hwhole.elim
  case assignExpr | arrayElement | constElement | propertyElement | matchArm | matchExpr | arrayLiteral
    | listExpr => cases hkind
  all_goals dsimp only [visitNode, Tree.children]
  case program =>
    rw [show Tree.childNodes (.node .program w cs) = cs from filter_eq_self.mpr hwhole]
    exact hv.lays_statements rfl hQ hcs (List.Subset.refl _) _
  case block => exact lays_braced hv hcs rfl hQ hwhole _ (by simp) _
  case classBody => exact lays_braced hv hcs rfl hQ hwhole _ (isNeutral_some rfl) _
  case forStmt => exact lays_forStmt hv hcs hwhole
  case ifStmt => exact lays_ifStmt hv hcs
  case elseIfClause | whileStmt | foreachStmt => exact lays_conditionalOnly hv hcs hwhole _ _
  case elseClause => exact lays_elseClause hv hcs hwhole
  case doStmt => exact lays_doParts hv hcs (Nat.le_refl _)
  case switchStmt => exact lays_switchStmt hv hcs
  case switchBody => exact lays_switchBody hv hcs hwhole
  case caseClause => exact lays_caseClause hv hcs rfl hQ hwhole
  case tryStmt => exact lays_tryStmt hv hcs
  case catchClause => exact lays_catchParts hv hcs
  case finallyClause => exact lays_finallyClause hv hcs
  case declareStmt => exact lays_declareParts hv hcs _
  case namespaceDecl => exact lays_namespaceDecl hv hcs
  case groupUseList =>
    refine .read_bind (.bind (lays_before rfl) fun _ => ?_)
    exact lays_plainList hv hcs hwhole Style.indentSize_mem
  case closureUse =>
    refine .bind (lays_before rfl) fun _ => .read_bind ?_
    exact lays_plainList hv hcs hwhole (ListShape.indent_mem _ _)
  case functionDecl | methodDecl => exact lays_functionDecl (t := .node _ w cs) hv hcs
  case paramList | argList | attributeGroup =>
    exact .read_bind (lays_plainList hv hcs hwhole (ListShape.indent_mem _ _))
  case param => exact lays_param hv hcs
  case returnType | enumBackingType => exact lays_colonType hv hcs
  case classDecl | interfaceDecl | traitDecl | enumDecl => exact lays_typeDecl hv hcs
  case extendsClause | implementsClause => exact lays_inheritanceClause hv hcs hwhole
  case propertyDecl | classConstDecl => exact lays_typedParts hv hcs lays_fieldSign _ _
  case traitUse => exact lays_traitUse hv hcs
  case traitUseBody => exact lays_traitUseBody hv hcs hwhole
  case unionType | intersectionType => exact lays_typeList hv hcs
  case binaryExpr | instanceofExpr | coalesceExpr => exact lays_binary hv hcs
  case unaryExpr => exact lays_unary hv hcs
  case postfixExpr => exact lays_trailing hv hcs
  case ternaryExpr => exact lays_ternary hv hcs
  case parenExpr | dynamicName => exact lays_delimited hv hcs _
  case namedArg => exact lays_namedArg hv hcs
  case methodCall | propertyFetch | staticCall | staticAccess => exact lays_memberAccess hv hcs
  case indexExpr => exact lays_indexExpr hv hcs
  case anonClass => exact lays_anonClass hv hcs
  case closureExpr | arrowFnExpr => exact lays_closure hv hcs
  case emptyStmt | attributeItem | nullableType | castExpr | callExpr => exact lays_visitAll hv hcs
  all_goals exact lays_walk hv hcs

end

/-! ## Programs -/

/-- `program` is laid out as a `Path`, and its leaves are taken before what stands at its end. -/
theorem path_program {w : Nat} {cs : List Tree} {s : State}
    (hv : Keeps R Q c (Tree.node .program w cs).height (visitTree (Tree.node .program w cs).height))
    (ht : (Tree.node .program w cs).Every Q)
    (hrun : Runs c (program (.node .program w cs)) {} () s) :
    @Path c.style R [] {} [] s ∧ ∃ s₁, Taken c (leavesAll cs) [] {} s₁ ∧
      Runs c (trivia c.tokens.size) s₁ () s := by
  have hrow : Rows Q (Tree.node .program w cs).height [.node .program w cs] :=
    forall_mem_singleton.mpr ⟨Nat.le_refl _, ht⟩
  obtain ⟨hcs, -, hQ⟩ := hrow.children
  have hinit : Laying c R (leavesAll cs) (fun _ => leavesAll cs) [] []
      (push (.mark (.init (hasMarkup c.source c.tokens)) 0 true)) :=
    .emit (chains_path.push rfl) (emits_push_mark rfl rfl)
  have hitems : Lays c R (leavesAll cs) [] [] (statements
      (visitTree (Tree.node .program w cs).height) .program .block (cs.filter Tree.isNode)) := by
    rw [filter_eq_self.mpr (hv.whole hQ)]
    exact hv.lays_statements rfl hQ (hcs.mono (Nat.sub_le _ 1)) (List.Subset.refl _) _
  obtain ⟨_, _, hread, hrun⟩ := hrun.of_bind
  cases hread
  obtain ⟨_, s₁, hrun₁, hrun⟩ := hrun.of_bind
  obtain ⟨_, s₂, hrun₂, hrun₃⟩ := hrun.of_bind
  obtain ⟨hpath₁, htaken₁⟩ := hinit _ _ _ hrun₁
  obtain ⟨hpath₂, htaken₂⟩ := hitems _ _ _ hrun₂
  exact ⟨(hpath₁.trans hpath₂).trans (path_trivia hrun₃), s₂, htaken₁.trans htaken₂, hrun₃⟩

/-- What still waits behind the last leaf of a `program` leads. -/
theorem Runs.lead_of_program {s s' : State} (hrun : Runs c (program t) s () s') :
    ∀ p ∈ s'.pending, p.lead = true := by
  obtain ⟨_, _, hread, hrun₁⟩ := hrun.of_bind
  cases hread
  obtain ⟨_, _, -, hrun₂⟩ := hrun₁.of_bind
  obtain ⟨_, _, -, hrun₃⟩ := hrun₂.of_bind
  exact hrun₃.lead_of_trivia

end CodeLayout.Annotate

namespace CodeLayout

/-- The kinds of the items. -/
def ItemStream.kinds (s : ItemStream) : List ItemKind := s.items.toList.map Item.kind

/-- `annotate` answers what the `program` of a source emits. -/
theorem runs_of_annotate {source : String} {xs : List Lexeme} {style : Style} {stream : ItemStream}
    (h : annotate source (Parsed.ofTokens (placed xs)) style = .ok stream) : ∃ w cs s,
      (Parsed.ofTokens (placed xs)).tree = .node .program w cs ∧
      Annotate.Runs ⟨source, placed xs, style⟩ (Annotate.program (.node .program w cs)) {} () s ∧
      stream = ⟨s.items, s.groups⟩ := by
  obtain ⟨w, cs, hroot, -⟩ := Parsed.tree_ofTokens (placed xs)
  unfold annotate at h
  rw [hroot] at h
  cases hrun : ((Annotate.program (.node .program w cs)).run ⟨source, placed xs, style⟩).run {} with
  | error e =>
    rw [show ((Annotate.program (.node .program w cs)).run
      ⟨source, (Parsed.ofTokens (placed xs)).tokens, style⟩).run {} = .error e from hrun] at h
    cases h
  | ok p =>
    rw [show ((Annotate.program (.node .program w cs)).run
      ⟨source, (Parsed.ofTokens (placed xs)).tokens, style⟩).run {} = .ok p from hrun] at h
    cases h
    exact ⟨w, cs, p.2, hroot, hrun, rfl⟩

end CodeLayout
