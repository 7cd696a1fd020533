import CodeLayout.Proofs.Annotate.Path
import CodeLayout.Proofs.Annotate.Program
import CodeLayout.Proofs.Grammar.Whole

/-!
# Blocks, lists and control flow as paths

The layout of a construct is a path between the visits of its children, on which all its leaves are
taken and all pairs of marks that it opens are closed again.  A layout that looks for the signs of its
construct needs the node to be whole for this: it leaves out what its construct has no place for.
What is asked of the visits is that they take the leaves of their trees, and a relation that holds for
every tree and every list of statements (`Keeps`).
-/

namespace CodeLayout.Annotate

open List
open CodeLayout.Tree (Cut Whole braces leavesAll listEnds)
open Parsed (kindOf ofTokens)

/-- Nodes whose children are laid out as a list of statements. -/
def listsStatements : NodeKind → Bool
  | .program | .block | .classBody | .caseClause => true
  | _ => false

/-- Nodes that make an alignment group or hold a sign to line up. -/
def aligns : NodeKind → Bool
  | .assignExpr | .arrayElement | .constElement | .propertyElement | .matchArm | .matchExpr
  | .arrayLiteral | .listExpr => true
  | _ => false

/-- The visits take the leaves of whole trees, and the relation holds for the visits of the trees that
are as `Q` says. -/
structure Keeps (R : State → State → Prop) (Q : NodeKind → List Tree → Prop) (c : Context) (n : Nat)
    (visit : Visit) : Prop where
  whole : ∀ {kind cs}, Q kind cs → Whole (kindOf c.tokens) kind cs
  tree : ∀ kind {t}, Rows Q n [t] → Relates c R (visit kind t)
  takes : ∀ kind {t}, Wholes c n [t] → Relates c (Taken c t.leaves []) (visit kind t)
  items : ∀ {kind cs ts} (place : Place), listsStatements kind = true → Q kind cs → Rows Q n cs →
    ts ⊆ cs → Relates c R (statements visit kind place ts)

variable {R : State → State → Prop} {Q : NodeKind → List Tree → Prop} {c : Context} {n : Nat}
  {visit : Visit} {kind : NodeKind} {t : Tree} {ts : List Tree} {ps : List (Pair c.style)} {is : List Nat}

/-- Of two roles that are `isNeutral`, either is. -/
theorem isNeutral_ite {b : Prop} [Decidable b] {r r' : Role} (hr : (ItemKind.role r).isNeutral = true)
    (hr' : (ItemKind.role r').isNeutral = true) :
    (ItemKind.role (if b then r else r')).isNeutral = true := by
  split
  · exact hr
  · exact hr'

theorem isNeutral_some {r : Role} (hr : (ItemKind.role r).isNeutral = true) :
    ∀ r' ∈ some r, (ItemKind.role r').isNeutral = true :=
  fun _ h => Option.mem_some.mp h ▸ hr

theorem runs_leafKind?_of_isSign {kind : TokenKind} (h : t.IsSign (kindOf c.tokens) kind)
    (s : State) : Runs c (leafKind? t) s (some kind) s := by
  obtain ⟨i, w, rfl, hi⟩ := eq_leaf_of_isOneOf ⟨_, mem_singleton_self _, h⟩
  rw [← mem_singleton.mp hi]
  exact runs_leafKind? c (.leaf i w) s

/-! ## Lists of statements -/

theorem lays_blankRoles {prev item : Tree} {place : Place} :
    Laying c R is (fun _ => is) ps ps (blankRoles prev item place) := by
  have hpolicies (policies : List BlankPolicy) :
      Laying c R is (fun _ => is) ps ps (policies.forM fun p => lead (.blank p)) := by
    induction policies with
    | nil => exact .pure rfl
    | cons p policies ih => exact .bind (lays_lead rfl) fun _ => ih
  unfold blankRoles
  split
  · refine .ite ?_ ?_
    · refine .read_bind (.look_bind looks_hasDocComment fun _ => ?_)
      exact .look_bind .pure fun _ => hpolicies _
    · refine .look_bind looks_useType? fun _ => .look_bind looks_useType? fun _ => ?_
      exact .look_bind .pure fun _ => hpolicies _
  · exact .pure rfl

theorem lays_afterDeclaration {item : Tree} :
    Laying c R is (fun _ => is) ps ps (afterDeclaration item) := by
  unfold afterDeclaration
  split
  · exact .ite (lays_role rfl) (.ite (lays_role rfl) (.pure rfl))
  · exact .pure rfl

/-- `statementsAfter` lays out all items; what they do to join groups is left to the relation. -/
theorem lays_statementsAfter
    (hjoin : ∀ prev group t, Relates c R (joinStatements prev group t))
    (hvisit : ∀ t ∈ ts, Lays c R t.leaves ps ps (visit kind t)) (place : Place) (prev : Option Tree)
    (group : Option (Nat × AlignKey)) :
    Lays c R (leavesAll ts) ps ps (statementsAfter visit kind place prev group ts) := by
  induction ts generalizing prev group with
  | nil => exact .pure rfl
  | cons t ts ih =>
    obtain ⟨ht, hts⟩ := forall_mem_cons.mp hvisit
    have hitem : Lays c R (leavesAll (t :: ts)) ps ps (do
        let group ← joinStatements prev group t
        visit kind t
        afterDeclaration t
        statementsAfter visit kind place (some t) group ts) := by
      refine .bind (.emitCall (hjoin _ _ _) marks_joinStatements.emits) fun group => ?_
      exact .cons ht fun _ => .bind lays_afterDeclaration fun _ => ih hts _ _
    rw [statementsAfter]
    dsimp only
    refine .optional (lays_lead rfl) ?_
    split
    · exact .bind lays_blankRoles fun _ => hitem
    · exact hitem

theorem lays_someGroup {groupKind : GroupKind} (hnew : Relates c R (newGroup groupKind)) :
    Laying c R is (fun _ => is) ps ps (some <$> newGroup groupKind) := by
  rw [map_eq_pure_bind]
  exact .bind (.emitCall hnew marks_newGroup.emits) fun _ => .pure rfl

/-! ## Behind a condition -/

theorem behindParen_of_cut {front behind : List Tree} {closing : Tree}
    (h : Cut (kindOf c.tokens) [.parenEnd] ts front closing behind) :
    behindParen c ts = behind := by
  obtain ⟨i, w, rfl, hi⟩ := eq_leaf_of_isOneOf h.sign
  obtain ⟨rfl, -, hall⟩ := h
  induction front with
  | nil => exact behindParen_closing (mem_singleton.mp hi)
  | cons t front ih =>
    obtain ⟨ht, hfront⟩ := forall_mem_cons.mp hall
    rw [cons_append]
    cases t with
    | leaf j v =>
      rw [behindParen_leaf fun hj => ht ⟨_, mem_singleton_self _, congrArg some hj⟩]
      exact ih hfront
    | node k v cs =>
      rw [behindParen]
      exact ih hfront

/-- `condition` answers the trees behind it. -/
theorem answers_condition (paren : ParenKind) (first : Bool) :
    Answers c (condition visit kind paren first ts) (behindParen c ts) := by
  induction ts generalizing first with
  | nil => exact .pure
  | cons t ts ih =>
    cases t with
    | node k w cs => exact .bind fun _ => ih false
    | leaf i w =>
      rw [condition]
      refine .kindAt_bind ?_
      split
      · next hk =>
        rw [behindParen_leaf (by rw [hk]; decide)]
        exact .ite (.bind fun _ => ih false) (.bind fun _ => ih false)
      · next hk =>
        rw [behindParen_closing hk]
        exact .bind fun _ => .pure
      · next hk =>
        rw [behindParen_leaf (by rw [hk]; decide)]
        exact .bind fun _ => ih false
      · next hk =>
        rw [behindParen_leaf (by rw [hk]; decide)]
        exact .bind fun _ => ih false
      · next hk _ _ =>
        rw [behindParen_leaf hk]
        exact .bind fun _ => ih false

theorem answers_conditional (paren : ParenKind) (construct : Construct) :
    Answers c (conditional visit kind ts paren construct) (behindParen c ts.tail).tail := by
  unfold conditional
  split
  · exact .pure
  · refine .bind fun _ => .bind_answer (answers_condition paren true) ?_
    rw [tail_cons]
    split
    · next hnil =>
      rw [hnil]
      exact .pure
    · next hcons =>
      rw [hcons]
      exact .bind fun _ => .pure

/-! ## Single trees -/

section

variable (hv : Keeps R Q c n visit)
include hv

theorem Keeps.lays (ht : Rows Q n [t]) : Lays c R t.leaves ps ps (visit kind t) :=
  .call (hv.tree kind ht) (hv.takes kind (ht.imp hv.whole))

theorem Keeps.lays_statements {cs : List Tree} (hkind : listsStatements kind = true) (hQ : Q kind cs)
    (hcs : Rows Q n cs) (hsub : ts ⊆ cs) (place : Place) :
    Lays c R (leavesAll ts) ps ps (statements visit kind place ts) := by
  refine .call (hv.items place hkind hQ hcs hsub) fun s a s' hrun => ?_
  -- that the leaves are taken has nothing to do with the relation
  have htaken : Lays c (fun _ _ => True) (leavesAll ts) [] [] (statements visit kind place ts) :=
    lays_statementsAfter (fun _ _ _ _ _ _ _ => trivial)
      (fun t ht => .call (fun _ _ _ _ => trivial) (hv.takes kind ((hcs.mem (hsub ht)).imp hv.whole)))
      place none none
  exact (htaken s a s' hrun).2

section

variable (ht : Rows Q n [t])
include ht

theorem lays_walkChild : Lays c R t.leaves ps ps (walkChild visit kind t) := by
  unfold walkChild
  split
  · exact .at_leaf lays_walkLeaf
  · exact .bind (hv.lays ht) fun _ => lays_role rfl
  · exact hv.lays ht

/-- `Lays` for a child that is a leaf, laid out in its own way, or a node. -/
theorem lays_leafOr {f : Nat → Emit Unit}
    (hf : ∀ i, Lays c R [i] ps ps (f i)) :
    Lays c R t.leaves ps ps (match t.leafIndex? with
      | some i => f i
      | none => visit kind t) := by
  split
  · next hleaf => exact .at_sign hleaf (hf _)
  · exact hv.lays ht

theorem lays_forPart : Lays c R t.leaves ps ps (forPart visit kind t) := by
  unfold forPart
  split
  · refine .at_leaf (.kindAt_bind ?_)
    split
    · exact .bind (lays_between rfl rfl) fun _ => lays_role rfl
    · exact lays_between rfl rfl
    · exact lays_leaf
  · exact hv.lays ht

theorem lays_labelPart : Lays c R t.leaves ps ps (labelPart visit kind t) := by
  refine .look_bind looks_leafKind? fun _ => ?_
  split
  · next hleaf => exact .at_sign hleaf lays_keyword
  · exact hv.lays ht

theorem lays_typePart : Lays c R t.leaves ps ps (typePart visit kind t) := by
  unfold typePart
  split
  · refine .at_leaf (.kindAt_bind ?_)
    split
    · exact lays_leafThen rfl
    · exact lays_thenLeaf rfl
    · exact lays_leaf
  · exact hv.lays ht

theorem lays_declarationFront (member : Bool) (rest : List Tree) :
    LaysIf c R t.leaves ps (declarationFront visit kind member t rest) := by
  cases t with
  | node k w cs =>
    refine .ite (.bind (hv.lays ht) fun _ => ?_) LaysIf.refused
    exact .bind (lays_role rfl) fun _ => .pure rfl
  | leaf i w =>
    unfold declarationFront
    dsimp only
    refine .kindAt_bind (.ite LaysIf.refused ?_)
    rw [Tree.leaves_leaf]
    refine .bind lays_leaf fun _ => ?_
    have hrole (more : Bool) : Laying c R [] (fun done => if done then [] else [i]) ps ps (do
        role (if member && !more then .afterModifiers else .afterKeyword)
        return true) := .bind (lays_role (isNeutral_ite rfl rfl)) fun _ => .pure rfl
    cases rest with
    | nil => exact .look_bind .pure fun _ => hrole _
    | cons u us => exact .look_bind looks_leafKind? fun _ => .look_bind .pure fun _ => hrole _

end

/-! ## Blocks and bodies -/

section

variable (hts : Rows Q n ts)
include hts

theorem lays_visitAll : Lays c R (leavesAll ts) ps ps (visitAll visit kind ts) :=
  .forM fun _ ht => hv.lays (hts.mem ht)

theorem lays_walk : Lays c R (leavesAll ts) ps ps (walk visit kind ts) :=
  .forM fun _ ht => lays_walkChild hv (hts.mem ht)

/-- `braced` closes again what it opens around its statements. -/
theorem lays_braced (hkind : listsStatements kind = true) (hQ : Q kind ts)
    (hwhole : Whole (kindOf c.tokens) .block ts) (construct : Construct)
    {front : Option Role} (hfront : ∀ r ∈ front, (ItemKind.role r).isNeutral = true) (place : Place) :
    Lays c R (leavesAll ts) ps ps (braced visit kind ts construct front place) := by
  obtain ⟨opening, items, closing, rfl, hopening, hclosing, hitems⟩ := hwhole
  obtain ⟨i, w, rfl, hi⟩ := eq_leaf_of_isOneOf ⟨_, mem_singleton_self _, hopening⟩
  obtain ⟨j, v, rfl, hj⟩ := eq_leaf_of_isOneOf ⟨_, mem_singleton_self _, hclosing⟩
  have hopen : ∀ s, Runs c (findSign? (· == .blockBegin) (.leaf i w :: (items ++ [.leaf j v]))) s
      (some (0, i)) s :=
    runs_findSign? [] nofun (beq_iff_eq.mpr (mem_singleton.mp hi))
  have hclose : ∀ s, Runs c (findLastSign? (· == .blockEnd) (.leaf i w :: (items ++ [.leaf j v]))) s
      (some (items.length + 1, j)) s :=
    runs_findLastSign? (.leaf i w :: items) (beq_iff_eq.mpr (mem_singleton.mp hj))
  have hinner : ((Tree.leaf i w :: (items ++ [.leaf j v])).take (items.length + 1)).drop (0 + 1) =
      items := by simp
  have hrest : Lays c R (leavesAll (.leaf i w :: (items ++ [.leaf j v]))) ps ps (do
      leaf i
      indent c.style.indent.indentSize
      role (.afterLeftBrace construct)
      statements visit kind place items
      dedentBefore c.style.indent.indentSize
      before (.beforeRightBrace construct)
      leaf j) := by
    refine .token lays_leaf fun _ => .bind (lays_start (.indent _ Style.indentSize_mem)) fun _ => ?_
    refine .bind (lays_start (.brace construct)) fun _ => ?_
    refine .split (hv.lays_statements hkind hQ hts (by simp) place) fun _ => ?_
    -- the indent is closed first, although it was opened first
    refine .swap (.bind (lays_stopLater (.indent _ _)) fun _ => ?_)
    exact .bind (lays_stopLater (.brace construct)) fun _ => .one (.at_leaf lays_leaf)
  refine .known hopen (.known hclose (.read_bind ?_))
  dsimp only
  rw [hinner, take_zero, filter_eq_self.mpr hitems]
  refine .look_bind .pure fun _ => ?_
  split
  · next r => exact .bind (lays_before (hfront r rfl)) fun _ => hrest
  · exact hrest

omit hts in
theorem lays_blockOf (ht : Rows Q n [t]) (hkind : t.kind? = some .block)
    (construct : Construct) {front : Option Role}
    (hfront : ∀ r ∈ front, (ItemKind.role r).isNeutral = true) :
    Lays c R t.leaves ps ps (blockOf visit construct front t) := by
  obtain ⟨w, cs, rfl⟩ := eq_node_of_kind? hkind
  obtain ⟨hcs, -, hQ⟩ := ht.children
  rw [Tree.leaves_node]
  exact lays_braced hv (hcs.mono (Nat.sub_le n 1)) rfl hQ (hv.whole hQ) construct hfront .block

omit hts in
theorem lays_ownBlock (ht : Rows Q n [t]) (hkind : t.kind? = some .block)
    (construct : Construct) : Lays c R t.leaves ps ps (ownBlock visit construct t) :=
  lays_blockOf hv ht hkind construct (isNeutral_some rfl)

omit hts in
theorem lays_body (ht : Rows Q n [t]) (construct : Construct) :
    Lays c R t.leaves ps ps (body visit kind construct t) := by
  unfold body
  split
  · next hkind => exact lays_ownBlock hv ht hkind construct
  · exact .bind (lays_before rfl) fun _ => hv.lays ht
  · refine .read_bind (.bind (lays_start (.indent _ Style.indentSize_mem)) fun _ => .bind (lays_role rfl) fun _ => ?_)
    exact .bind (.unbroken fun _ => hv.lays ht) fun _ => lays_stop (.indent _ _)

/-! ## Lists -/

/-- `listElements` that join a group may do more than the visit alone. -/
theorem lays_listElements (list : ListKind) {group : Option Nat}
    (hjoin : ∀ g ∈ group, ∀ t ∈ ts, Relates c R (do joinGroup g t; visit kind t)) :
    Lays c R (leavesAll ts) ps ps (listElements visit kind list group ts) := by
  induction ts with
  | nil => exact .pure rfl
  | cons t ts ih =>
    have hrest := ih hts.tail fun g hg u hu => hjoin g hg u (mem_cons_of_mem t hu)
    rw [listElements]
    dsimp only
    refine .look_bind looks_leafKind? fun _ => ?_
    split
    · next i hleaf =>
      refine .cons (.at_sign hleaf (lays_between rfl rfl)) fun _ => ?_
      exact .optional (lays_role rfl) hrest
    · split
      · next g =>
        rw [← bind_assoc]
        refine .cons (.call (hjoin g rfl t mem_cons_self) ?_) fun _ => hrest
        exact .taken_after marks_joinGroup.emits fun _ => hv.takes kind (hts.head.imp hv.whole)
      · exact .cons (hv.lays hts.head) fun _ => hrest

/-- `list` takes all of a list that ends with its closing sign, and closes the indent and the anchor
that it opens. -/
theorem lays_list (hend : ∃ front closing, ts = front ++ [closing] ∧
      closing.IsOneOf (kindOf c.tokens) listEnds) (shape : ListShape)
    (hshape : shape.indent ∈ c.style.indentWidths) {group : Option Nat}
    (hjoin : ∀ g ∈ group, ∀ t ∈ ts, Relates c R (do joinGroup g t; visit kind t)) :
    Lays c R (leavesAll ts) ps ps (list visit kind ts shape group) := by
  obtain ⟨front, closing, rfl, hclosing⟩ := hend
  obtain ⟨j, w, rfl, hj⟩ := eq_leaf_of_isOneOf hclosing
  have hclose : isCloseSign (c.token j).kind = true := by
    rcases mem_cons.mp hj with h | h
    · rw [h]; rfl
    · rcases mem_cons.mp h with h | h
      · rw [h]; rfl
      · rw [mem_singleton.mp h]; rfl
  obtain ⟨opened?, hopened, hopen, -⟩ := findSign?_spec c isOpenSign (front ++ [.leaf j w])
  refine .known (fun s => (hopened s).runs) (.known (runs_findLastSign? front hclose) ?_)
  split
  · next opened closed hfound =>
    cases hfound
    split
    · exact lays_visitAll hv hts
    · next hlt =>
      -- cut the row at both signs: nothing stands behind the closing one
      have hsign : SignAt c isCloseSign (front ++ [.leaf j w]) (front.length, j) :=
        ⟨⟨_, getElem?_concat_length, rfl⟩, hclose⟩
      obtain ⟨t, u, ht, hu, hsplit⟩ := (hopen _ rfl).split_two hsign (Nat.lt_of_not_le hlt)
      unfold listBetween
      dsimp only at hsplit ⊢
      generalize (front ++ [Tree.leaf j w]).take opened.1 = as at hsplit ⊢
      generalize ((front ++ [Tree.leaf j w]).take front.length).drop (opened.1 + 1) = bs at hsplit ⊢
      rw [drop_of_length_le (by simp)] at hsplit
      rw [hsplit] at hts hjoin ⊢
      have hleaf (x : Tree) {k : Nat} (hx : x.leaves = [k]) {qs : List (Pair c.style)} :
          Lays c R x.leaves qs qs (leaf k) := by
        rw [hx]
        exact lays_leaf
      have hinner {qs : List (Pair c.style)} :
          Lays c R (leavesAll bs) qs qs (listElements visit kind shape.kind group bs) :=
        lays_listElements hv hts.right.tail.left _ fun g hg x hx => hjoin g hg x (by simp [hx])
      have hrest (broken edges : Bool) : Lays c R (leavesAll (t :: (bs ++ [u]))) ps ps (do
          leaf opened.2
          if broken then indent shape.indent
          role (if edges && shape.breakOpen then .breakList else .afterLeftParen shape.paren)
          mark .anchor
          listElements visit kind shape.kind group bs
          mark .anchorEnd
          if broken then dedentBefore shape.indent
          before (if edges && shape.breakClose then .breakList else .beforeRightParen shape.paren)
          leaf j) := by
        have hrole {is : List Nat} {qs : List (Pair c.style)} : Laying c R is (fun _ => is) qs qs (role
            (if edges && shape.breakOpen then .breakList else .afterLeftParen shape.paren)) :=
          lays_role (isNeutral_ite rfl rfl)
        have hclosed : Lays c R (leavesAll [u]) ps ps (do
            before (if edges && shape.breakClose then .breakList else .beforeRightParen shape.paren)
            leaf j) := .bind (lays_before (isNeutral_ite rfl rfl)) fun _ => .one (hleaf u hu)
        refine .cons (hleaf t ht) fun _ => ?_
        cases broken with
        | false =>
          refine .bind hrole fun _ => .bind (lays_start .anchor) fun _ => .split hinner fun _ => ?_
          exact .bind (lays_stop .anchor) fun _ => hclosed
        | true =>
          refine .bind (lays_start (.indent shape.indent hshape)) fun _ => .bind hrole fun _ => ?_
          refine .bind (lays_start .anchor) fun _ => .split hinner fun _ => ?_
          refine .bind (lays_stop .anchor) fun _ => ?_
          exact .bind (lays_stopLater (.indent _ _)) fun _ => hclosed
      refine .split (lays_visitAll hv hts.left) fun _ => .read_bind ?_
      exact .either .pure looks_listHasNewline fun _ => .optional (lays_before rfl) (hrest _ _)
  · exact lays_visitAll hv hts

theorem lays_plainList (hend : ∃ front closing, ts = front ++ [closing] ∧
      closing.IsOneOf (kindOf c.tokens) listEnds) {shape : ListShape}
    (hshape : shape.indent ∈ c.style.indentWidths) :
    Lays c R (leavesAll ts) ps ps (list visit kind ts shape none) :=
  lays_list hv hts hend shape hshape nofun

/-! ## Control flow -/

/-- `condition` takes the trees before those that it answers. -/
theorem laying_condition (paren : ParenKind) (first : Bool) :
    Laying c R (leavesAll ts) leavesAll ps ps (condition visit kind paren first ts) := by
  induction ts generalizing first with
  | nil => exact .pure rfl
  | cons t ts ih =>
    have hrest := ih hts.tail false
    cases t with
    | node k w cs => exact .cons (hv.lays hts.head) fun _ => hrest
    | leaf i w =>
      rw [condition]
      refine .kindAt_bind ?_
      split
      · exact .ite (.token (lays_between rfl rfl) fun _ => hrest) (.token lays_leaf fun _ => hrest)
      · exact .token (lays_thenLeaf rfl) fun _ => .pure rfl
      · exact .token (lays_between rfl rfl) fun _ => hrest
      · exact .token (lays_between rfl rfl) fun _ => hrest
      · exact .token lays_leaf fun _ => hrest

/-- `conditional` takes a keyword, a condition and a body before the trees that it answers. -/
theorem laying_conditional (paren : ParenKind) (construct : Construct) :
    Laying c R (leavesAll ts) leavesAll ps ps (conditional visit kind ts paren construct) := by
  unfold conditional
  split
  · exact .pure rfl
  · next word rest =>
    refine .cons (hv.lays hts.head) fun _ => ?_
    refine .bind_answer (laying_condition hv hts.tail paren true) (answers_condition paren true) ?_
    have hbehind := hts.tail.subset (behindParen_suffix (c := c) rest).subset
    -- the condition says by its answer what is left for the body
    split
    · next hnil =>
      rw [hnil]
      exact .pure rfl
    · next u us hcons =>
      rw [hcons] at hbehind ⊢
      exact .cons (lays_body hv hbehind.head construct) fun _ => .pure rfl

/-- `conditionalOnly` takes a keyword, a condition and a body, with nothing behind them. -/
theorem lays_conditionalOnly (hwhole : ∃ word rest front closing body, ts = word :: rest ∧
      Cut (kindOf c.tokens) [.parenEnd] rest front closing [body]) (paren : ParenKind)
    (construct : Construct) :
    Lays c R (leavesAll ts) ps ps (conditionalOnly visit kind ts paren construct) := by
  obtain ⟨word, rest, front, closing, body, rfl, hcut⟩ := hwhole
  have hanswer : Answers c (conditional visit kind (word :: rest) paren construct)
      (behindParen c rest).tail := answers_conditional paren construct
  -- behind the parenthesis there is the body only, so that nothing is left
  rw [behindParen_of_cut hcut, tail_cons] at hanswer
  show Lays c R _ ps ps (conditional visit kind (word :: rest) paren construct >>= fun _ => pure ())
  exact .bind_answer (laying_conditional hv hts paren construct) hanswer (.pure rfl)

theorem lays_ifStmt : Lays c R (leavesAll ts) ps ps (ifStmt visit kind ts) := by
  refine .bind_answer (laying_conditional hv hts _ _) (answers_conditional _ _) (.forM fun t ht => ?_)
  have hrest := (behindParen_suffix (c := c) ts.tail).subset (mem_of_mem_tail ht)
  exact .bind (lays_before rfl) fun _ => hv.lays (hts.mem (mem_of_mem_tail hrest))

theorem lays_elseClause (hwhole : ts.length ≤ 2) :
    Lays c R (leavesAll ts) ps ps (elseClause visit kind ts) := by
  unfold elseClause
  split
  · next word t rest =>
    rw [length_cons, length_cons] at hwhole
    obtain rfl : rest = [] := eq_nil_of_length_eq_zero (by omega)
    refine .cons (hv.lays hts.head) fun _ => .one (.ite ?_ (lays_body hv hts.tail.head _))
    exact .bind (lays_role rfl) fun _ => hv.lays hts.tail.head
  · exact lays_visitAll hv hts

/-- `doParts` does not reach the bound of the number of parts. -/
theorem lays_doParts {k : Nat} (hk : ts.length ≤ k) :
    Lays c R (leavesAll ts) ps ps (doParts visit kind k ts) := by
  induction k generalizing ts with
  | zero =>
    obtain rfl : ts = [] := eq_nil_of_length_eq_zero (by omega)
    exact .pure rfl
  | succ k ih =>
    cases ts with
    | nil => exact .pure rfl
    | cons t ts =>
      rw [length_cons] at hk
      have hrest := ih hts.tail (by omega)
      unfold doParts
      refine .look_bind looks_leafKind? fun _ => ?_
      split
      · refine .cons (hv.lays hts.head) fun _ => ?_
        split
        · exact .pure rfl
        · next u us =>
          rw [length_cons] at hk
          exact .cons (lays_body hv hts.tail.head _) fun _ => ih hts.tail.tail (by omega)
      · refine .bind (lays_before rfl) fun _ => .cons (hv.lays hts.head) fun _ => ?_
        refine .bind_answer (laying_condition hv hts.tail _ _) (answers_condition _ _) ?_
        -- a condition leaves no more parts than it found
        have hsuffix := behindParen_suffix (c := c) ts
        exact ih (hts.tail.subset hsuffix.subset) (hsuffix.length_le.trans (by omega))
      · next i hleaf => exact .cons (.at_sign hleaf (lays_between rfl rfl)) fun _ => hrest
      · exact .cons (hv.lays hts.head) fun _ => hrest

/-- `forStmt` has a head that ends with its first closing parenthesis, and one body follows. -/
theorem lays_forStmt (hwhole : Whole (kindOf c.tokens) .forStmt ts) :
    Lays c R (leavesAll ts) ps ps (forStmt visit kind ts) := by
  obtain ⟨front, closing, t, hcut, hnode⟩ := hwhole
  obtain ⟨j, w, heq, hj, hclosed⟩ := runs_findSign?_of_cut hcut (· == .parenEnd) (by simp)
  obtain ⟨opened?, hopened, hopen, -⟩ := findSign?_spec c (· == .parenBegin) ts
  refine .known (fun s => (hopened s).runs) (.known hclosed ?_)
  split
  · next opened closed hfound =>
    cases hfound
    have hopen := hopen _ rfl
    have hclose : SignAt c (· == .parenEnd) ts (front.length, j) := by
      refine ⟨⟨.leaf j w, ?_, rfl⟩, beq_iff_eq.mpr (mem_singleton.mp hj)⟩
      rw [heq, getElem?_append_right (Nat.le_refl _), Nat.sub_self]
      rfl
    -- neither the sign at the end of the head nor the body is the opening parenthesis
    have hlt : opened.1 < front.length := by
      obtain ⟨u, hu, hleaf⟩ := hopen.leaf
      rcases Nat.lt_or_ge opened.1 front.length with h | h
      · exact h
      · exfalso
        rw [heq, getElem?_append_right h] at hu
        match opened.1 - front.length, hu with
        | 0, hu =>
          cases hu
          cases hleaf
          exact absurd (hopen.kind_eq.symm.trans (mem_singleton.mp hj)) (by decide)
        | 1, hu =>
          cases hu
          obtain ⟨v, rfl⟩ := eq_leaf_of_leafIndex? hleaf
          cases hnode
    obtain ⟨u, v, hu, hv', hsplit⟩ := hopen.split_two hclose hlt
    have hbehind : ts.drop (front.length + 1) = [t] := by
      rw [heq]
      simp
    dsimp only at hsplit ⊢
    rw [hbehind] at hsplit ⊢
    generalize ts.take opened.1 = as at hsplit ⊢
    generalize (ts.take front.length).drop (opened.1 + 1) = bs at hsplit ⊢
    rw [hsplit] at hts ⊢
    have hsign (x : Tree) {k : Nat} {m : Emit Unit} (hx : x.leaves = [k]) (hm : Lays c R [k] ps ps m) :
        Lays c R x.leaves ps ps m := by rwa [hx]
    have hparts {qs : List (Pair c.style)} :
        Lays c R (leavesAll bs) qs qs (bs.forM (forPart visit kind)) :=
      .forM fun _ hx => lays_forPart hv (hts.right.tail.left.mem hx)
    have hbody : Lays c R (leavesAll [v, t]) ps ps (do
        closeParen .forHead j
        body visit kind .forLoop t) := by
      refine .cons (hsign v hv' (lays_thenLeaf rfl)) fun _ => ?_
      exact .one (lays_body hv hts.right.tail.right.tail _)
    have hhead (broken : Bool) : Lays c R (leavesAll (as ++ u :: (bs ++ [v, t]))) ps ps (do
        visitAll visit kind as
        before (.beforeParen .forHead)
        leaf opened.2
        if broken then indent c.style.indent.continuationSize
        role (.afterLeftParen .forHead)
        mark .anchor
        bs.forM (forPart visit kind)
        mark .anchorEnd
        if broken then dedentBefore c.style.indent.continuationSize
        closeParen .forHead j
        body visit kind .forLoop t) := by
      refine .split (lays_visitAll hv hts.left) fun _ => .bind (lays_before rfl) fun _ => ?_
      refine .cons (hsign u hu lays_leaf) fun _ => ?_
      cases broken with
      | false =>
        refine .bind (lays_role rfl) fun _ => .bind (lays_start .anchor) fun _ => ?_
        exact .split hparts fun _ => .bind (lays_stop .anchor) fun _ => hbody
      | true =>
        refine .bind (lays_start (.indent _ Style.continuationSize_mem)) fun _ => ?_
        refine .bind (lays_role rfl) fun _ => .bind (lays_start .anchor) fun _ => ?_
        refine .split hparts fun _ => ?_
        exact .bind (lays_stop .anchor) fun _ => .bind (lays_stopLater (.indent _ _)) fun _ => hbody
    refine .read_bind (.ite (.look_bind .pure fun _ => hhead _) ?_)
    exact .look_bind looks_signs fun _ => .look_bind looks_breaksAround fun _ => hhead _
  · exact lays_visitAll hv hts

theorem lays_switchStmt : Lays c R (leavesAll ts) ps ps (switchStmt visit kind ts) := by
  unfold switchStmt
  split
  · exact .pure rfl
  · next word rest =>
    refine .cons (hv.lays hts.head) fun _ => ?_
    refine .bind_answer (laying_condition hv hts.tail _ _) (answers_condition _ _) ?_
    exact lays_visitAll hv (hts.tail.subset (behindParen_suffix rest).subset)

/-- `switchParts` opens and closes nothing for the cases between the braces. -/
theorem lays_switchParts_append {size : Nat} {qs : List (Pair c.style)} {rest : List Tree}
    (hnodes : ∀ t ∈ ts, t.isNode = true) (hrest : ∀ first,
      Lays c R (leavesAll rest) ps qs (switchParts visit kind size first rest)) (first : Bool) :
    Lays c R (leavesAll (ts ++ rest)) ps qs (switchParts visit kind size first (ts ++ rest)) := by
  induction ts generalizing first with
  | nil => exact hrest first
  | cons t ts ih =>
    obtain ⟨ht, hts'⟩ := forall_mem_cons.mp hnodes
    rw [cons_append, switchParts]
    refine .known (runs_leafKind? c t) ?_
    cases t with
    | leaf i w => cases ht
    | node k w cs =>
      refine .optional (lays_lead rfl) (.cons (hv.lays hts.head) fun _ => ?_)
      exact ih hts.tail hts' false

theorem lays_switchBody (hwhole : Whole (kindOf c.tokens) .switchBody ts) :
    Lays c R (leavesAll ts) ps ps (switchBody visit kind ts) := by
  obtain ⟨opening, items, closing, rfl, hopening, hclosing, hitems⟩ := hwhole
  refine .read_bind ?_
  rw [switchParts]
  refine .known (runs_leafKind?_of_isSign hopening) (.bind (lays_before rfl) fun _ => ?_)
  refine .cons (hv.lays hts.head) fun _ => .bind (lays_start (.indent _ Style.indentSize_mem)) fun _ => ?_
  refine .bind (lays_start (.brace .switch)) fun _ => ?_
  refine lays_switchParts_append hv hts.tail.left hitems (fun first => ?_) true
  rw [switchParts]
  refine .known (runs_leafKind?_of_isSign hclosing) ?_
  refine .swap (.bind (lays_stopLater (.indent _ _)) fun _ => ?_)
  refine .bind (lays_stopLater (.brace .switch)) fun _ => ?_
  exact .cons (hv.lays hts.tail.right) fun _ => .pure rfl

/-- `caseClause` has a label that ends with a sign, and statements follow. -/
theorem lays_caseClause (hkind : listsStatements kind = true) (hQ : Q kind ts)
    (hwhole : Whole (kindOf c.tokens) .caseClause ts) :
    Lays c R (leavesAll ts) ps ps (caseClause visit kind ts) := by
  obtain ⟨word, label, sign, items, hcut, -, hnodes⟩ := hwhole
  generalize word :: label = front at hcut
  obtain ⟨i, w, rfl, -, hfound⟩ := runs_findSign?_of_cut hcut
    (fun k => k == .colon || k == .semiColon) (by simp [Tree.labelEnds])
  have hdrop : (front ++ Tree.leaf i w :: items).drop (front.length + 1) = items := by simp
  refine .known hfound ?_
  dsimp only
  rw [take_left, hdrop, getElem?_append_right (Nat.le_refl _), Nat.sub_self,
    filter_eq_self.mpr hnodes]
  refine .split (.forM fun x hx => lays_labelPart hv (hts.left.mem hx)) fun _ => ?_
  refine .token (lays_thenLeaf rfl) fun _ => ?_
  split
  · refine .read_bind (.bind (lays_start (.indent _ Style.indentSize_mem)) fun _ => ?_)
    refine .bind (hv.lays_statements hkind hQ hts (by simp) _) fun _ => lays_stopLater (.indent _ _)
  · next hempty =>
    obtain rfl : items = [] := by simpa using hempty
    exact .pure rfl

theorem lays_tryStmt : Lays c R (leavesAll ts) ps ps (tryStmt visit kind ts) := by
  refine .forM fun t ht => ?_
  split
  · next hkind => exact lays_ownBlock hv (hts.mem ht) hkind .tryBlock
  · exact .bind (lays_before rfl) fun _ => hv.lays (hts.mem ht)
  · exact .bind (lays_before rfl) fun _ => hv.lays (hts.mem ht)
  · exact hv.lays (hts.mem ht)

theorem lays_catchParts : Lays c R (leavesAll ts) ps ps (catchParts visit kind ts) := by
  induction ts with
  | nil => exact .pure rfl
  | cons t ts ih =>
    have hrest := ih hts.tail
    cases t with
    | node k w cs =>
      unfold catchParts
      split
      · next hkind =>
        exact .cons (lays_ownBlock hv hts.head (beq_iff_eq.mp hkind) _) fun _ => hrest
      · exact .cons (hv.lays hts.head) fun _ => hrest
    | leaf i w =>
      rw [catchParts]
      dsimp only
      refine .kindAt_bind ?_
      split
      · exact .token (lays_between rfl rfl) fun _ => hrest
      · exact .token (lays_thenLeaf rfl) fun _ => hrest
      · exact .token (lays_between rfl rfl) fun _ => hrest
      · refine .token lays_leaf fun _ => ?_
        split
        · exact .look_bind looks_leafKind? fun _ => .optional (lays_role rfl) hrest
        · exact hrest
      · exact .token lays_leaf fun _ => hrest

theorem lays_finallyClause : Lays c R (leavesAll ts) ps ps (finallyClause visit kind ts) := by
  refine .forM fun t ht => ?_
  split
  · next hkind => exact lays_ownBlock hv (hts.mem ht) (beq_iff_eq.mp hkind) .finallyBlock
  · exact hv.lays (hts.mem ht)

theorem lays_declareParts (inHead : Bool) :
    Lays c R (leavesAll ts) ps ps (declareParts visit kind inHead ts) := by
  induction ts generalizing inHead with
  | nil => exact .pure rfl
  | cons t ts ih =>
    have hrest (inHead : Bool) := ih hts.tail inHead
    cases t with
    | node k w cs =>
      unfold declareParts
      refine .ite (.cons (hv.lays hts.head) fun _ => hrest _) ?_
      exact .cons (lays_body hv hts.head .other) fun _ => hrest _
    | leaf i w =>
      rw [declareParts]
      refine .kindAt_bind ?_
      split
      · exact .token (lays_between rfl rfl) fun _ => hrest _
      · exact .token (lays_thenLeaf rfl) fun _ => hrest _
      · exact .token (lays_between rfl rfl) fun _ => hrest _
      · exact .token (lays_between rfl rfl) fun _ => hrest _
      · exact .token (lays_between rfl rfl) fun _ => hrest _
      · exact .token lays_leaf fun _ => hrest _

theorem lays_namespaceDecl : Lays c R (leavesAll ts) ps ps (namespaceDecl visit kind ts) := by
  refine .forM fun t ht => ?_
  split
  · exact .at_leaf lays_walkLeaf
  · exact lays_ownBlock hv (hts.mem ht) rfl .other
  · exact hv.lays (hts.mem ht)

end

end

end CodeLayout.Annotate
