import CodeLayout.Proofs.Annotate.Visit

/-!
# Statements in step

Every layout of a statement visits its leaves in order.  The blocks of braces and the heads of counting
loops need their signs in order, which the grammar sees to.  A statement emits a role only behind its
first leaf, and queues one only for a leaf whose kind it has looked at, or that cannot be a tag by the
grammar (`Tree.Formed`).
-/

namespace CodeLayout.Annotate

open List
open CodeLayout.Tree (Led Paired leafIndex? leavesAll leavesAll_append leavesAll_cons leavesAll_nil
  leaves_leaf leaves_node)
open Parsed (kindOf)

section Marks

variable {c : Context} {n : Nat}

theorem marks_forM {α : Type} {f : α → Emit Unit} {as : List α} (hf : ∀ a, Marks c (f a)) :
    Marks c (as.forM f) := by
  induction as with
  | nil => exact .pure
  | cons a as ih =>
    rw [List.forM]
    exact .mark_bind (hf a) fun _ => ih

theorem marks_useType? {t : Tree} : Marks c (useType? t) := by
  unfold useType?
  split
  · refine .mark_bind marks_leafKind? fun _ => ?_
    split
    · exact .pure
    · exact .pure
    · exact .pure
  · exact .pure

variable {item : Tree}

theorem marks_blankRoles {prev : Tree} {place : Place} :
    Marks c (blankRoles prev item place) := by
  have hpolicies (policies : List BlankPolicy) :
      Marks c (policies.forM fun p => lead (.blank p)) := marks_forM fun _ => marks_blank
  unfold blankRoles
  split
  · refine .ite ?_ ?_
    · refine .read_bind (fun _ => rfl) <| .mark_bind marks_hasDocComment fun _ => ?_
      exact .mark_bind .pure fun _ => hpolicies _
    · refine .mark_bind marks_useType? fun _ => .mark_bind marks_useType? fun _ => ?_
      exact .mark_bind .pure fun _ => hpolicies _
  · exact .pure

theorem marks_joinStatements {prev : Option Tree} {group : Option (Nat × AlignKey)} :
    Marks c (joinStatements prev group item) := by
  unfold joinStatements
  split
  · exact .pure
  · next key target _ =>
    have hjoin {m : Emit Nat} (hm : Marks c m) (width : Option Nat) : Marks c (do
        let g ← m
        awaitMember g width target
        return some (g, key)) := .mark_bind hm fun _ => .mark_bind marks_awaitMember fun _ => .pure
    have hnew (width : Option Nat) := hjoin (m := newGroup .assignment) marks_newGroup width
    refine .mark_bind marks_findLeaf? fun _ => .ite .pure ?_
    cases target.children.head? with
    | some lhs =>
      refine .mark_bind marks_textOf fun _ => .mark_bind .pure fun _ => ?_
      split
      · exact .mark_bind marks_separated fun _ => .ite (hjoin .pure _) (hnew _)
      · exact hnew _
    | none =>
      refine .mark_bind .pure fun _ => ?_
      split
      · exact .mark_bind marks_separated fun _ => .ite (hjoin .pure _) (hnew _)
      · exact hnew _

theorem marks_afterDeclaration : Marks c (afterDeclaration item) := by
  unfold afterDeclaration
  split
  · exact .ite (marks_mark rfl rfl) (.ite (marks_mark rfl rfl) .pure)
  · exact .pure

end Marks

/-! ## Lists of statements -/

section Statements

variable {W : Prop} {A : Nat → Prop} {c : Context} {xs : List Lexeme} {n : Nat} {visit : Visit}
  {kind : NodeKind} {t : Tree} {ts : List Tree}

/-- `statementsAfter` starts a statement that is not the first behind a leaf: either the list does,
or each of its statements has one. -/
theorem steps_statementsAfter (hv : Follows c xs n visit) (hr : Row c n ts) (place : Place)
    (prev : Option Tree) (group : Option (Nat × AlignKey))
    (hfirst : prev.isSome = true ∨ place = .caseBody → ∀ k, A k → Past k)
    (hleafy : (∀ t ∈ ts, t.leaves ≠ []) ∨ ∀ k, A k → Past k) :
    Steps c xs False A (leavesAll ts) (statementsAfter visit kind place prev group ts) := by
  induction ts generalizing prev group A with
  | nil => exact .nothing .pure
  | cons t ts ih =>
    have hitem : Steps c xs False A (leavesAll (t :: ts)) (do
        let group ← joinStatements prev group t
        visit kind t
        afterDeclaration t
        statementsAfter visit kind place (some t) group ts) := by
      refine .emit_bind marks_joinStatements fun group => ?_
      refine .cons_past hr (.of_visits (hv.visits kind t hr.head)) ?_ fun _ => ?_
      · exact hleafy.imp_left fun h => h t mem_cons_self
      · refine .emit_bind marks_afterDeclaration fun _ => ?_
        exact ih hr.tail (some t) group (fun _ _ => id) (.inr fun _ => id)
    rw [statementsAfter]
    dsimp only
    refine .lead_if (fun h => hfirst (by simpa using h)) ?_
    split
    · exact .emit_bind marks_blankRoles fun _ => hitem
    · exact hitem

/-- `statements` behind a leaf. -/
theorem steps_statements (hv : Follows c xs n visit) (hr : Row c n ts) (place : Place) :
    Steps c xs False Past (leavesAll ts) (statements visit kind place ts) :=
  steps_statementsAfter hv hr place none none (fun _ _ => id) (.inr fun _ => id)

/-! ## Blocks and bodies -/

theorem Row.mono {m : Nat} (h : Row c n ts) (hle : n ≤ m) : Row c m ts :=
  ⟨h.sorted, h.orderly, h.formed, fun t ht => (h.height_le t ht).trans hle⟩

/-- Of two signs that are `Paired`, the opening one comes first. -/
theorem SignAt.lt_of_paired {opening closing : TokenKind} {opened closed : Nat × Nat}
    (hpaired : Paired (kindOf c.tokens) opening closing ts) (hne : opening ≠ closing)
    (hopen : SignAt c (· == opening) ts opened) (hclose : SignAt c (· == closing) ts closed) :
    opened.1 < closed.1 := by
  have hsign {k : TokenKind} {sign : Nat × Nat} (h : SignAt c (· == k) ts sign) :
      ∃ hlt : sign.1 < ts.length, (ts[sign.1]).IsSign (kindOf c.tokens) k := by
    obtain ⟨t, ht, hleaf⟩ := h.leaf
    obtain ⟨hlt, rfl⟩ := List.getElem?_eq_some_iff.mp ht
    refine ⟨hlt, ?_⟩
    cases ht' : ts[sign.1] with
    | leaf i w =>
      rw [ht'] at hleaf
      cases hleaf
      exact congrArg some (beq_iff_eq.mp h.kind)
    | node k w cs =>
      rw [ht'] at hleaf
      exact absurd hleaf (by simp [leafIndex?])
  obtain ⟨hlt, hsign₁⟩ := hsign hopen
  obtain ⟨hlt', hsign₂⟩ := hsign hclose
  rcases Nat.lt_trichotomy opened.1 closed.1 with h | h | h
  · exact h
  · -- one leaf cannot be both signs
    simp only [h] at hsign₁
    cases ht : ts[closed.1] with
    | leaf i w =>
      rw [ht] at hsign₁ hsign₂
      exact absurd (Option.some.inj (hsign₁.symm.trans hsign₂)) hne
    | node k w cs =>
      rw [ht] at hsign₁
      exact hsign₁.elim
  · exact absurd ⟨hsign₂, hsign₁⟩ (pairwise_iff_getElem.mp hpaired _ _ hlt' hlt h)

theorem SignAt.kind_eq {k : TokenKind} {sign : Nat × Nat} (h : SignAt c (· == k) ts sign) :
    (c.token sign.2).kind = k := beq_iff_eq.mp h.kind

section

variable (hc : Reading c xs) (hv : Follows c xs n visit)
include hc hv

/-- `braced` lays out in step what stands in braces. -/
theorem visits_braced (hr : Row c n ts)
    (hpaired : Paired (kindOf c.tokens) .blockBegin .blockEnd ts)
    (construct : Construct) (front : Option Role) (place : Place) :
    Visits c xs (leavesAll ts) (braced visit kind ts construct front place) := by
  obtain ⟨opened?, hopened, hopen, -⟩ := findSign?_spec c (· == .blockBegin) ts
  obtain ⟨closed?, hclosed, hclose⟩ := findLastSign?_spec c (· == .blockEnd) ts
  refine .look hopened (.look hclosed ?_)
  split
  · next opened closed =>
    have hopen := hopen _ rfl
    have hclose := hclose _ rfl
    have hlt := hopen.lt_of_paired hpaired (by decide) hclose
    obtain ⟨t, u, ht, hu, hts⟩ := hopen.split_two hclose hlt
    dsimp only
    generalize ts.take opened.1 = as at hts ⊢
    generalize (ts.take closed.1).drop (opened.1 + 1) = bs at hts ⊢
    generalize ts.drop (closed.1 + 1) = ds at hts
    rw [hts] at hr ⊢
    have hrt : Row c n (t :: (bs ++ u :: ds)) := hr.right
    have hras : Row c n as := hr.left
    have hrbs : Row c n (bs.filter Tree.isNode) :=
      hrt.tail.sublist (filter_sublist.trans (sublist_append_left _ _))
    -- from behind the left brace on
    have hrest : Steps c xs False (After xs opened.2) (leavesAll (bs ++ u :: ds)) (do
        indent c.style.indent.indentSize
        role (.afterLeftBrace construct)
        statements visit kind place (bs.filter Tree.isNode)
        dedentBefore c.style.indent.indentSize
        before (.beforeRightBrace construct)
        leaf closed.2) := by
      refine .emit_bind marks_indent fun _ => .role_past After.past (.of_cursor ?_ After.past)
      refine .split hrt.tail (.sublist (steps_statements hv hrbs place) filter_sublist
        (.inr fun _ => id)) fun _ => .emit_bind marks_dedentBefore fun _ => ?_
      refine .only ?_ (.inl (by simp [hu]))
      rw [hu]
      exact visits_thenLeaf hc (ahead_of_ne (by rw [hclose.kind_eq]; decide))
    have hne : (c.token opened.2).kind ≠ .openTagWithEcho := by
      rw [hopen.kind_eq]
      decide
    refine .read_bind (fun _ => rfl) (.split hr (visits_visitAll hv hras) fun _ => ?_)
    split
    · exact .before_open (.leaf_cons hc hrt ht (fun _ => hne) hrest)
    · exact .leaf_cons hc hrt ht False.elim hrest
  · exact visits_visitAll hv hr

omit hc hv in
theorem eq_node_of_kind? {k : NodeKind} (h : t.kind? = some k) : ∃ w cs, t = .node k w cs := by
  cases t with
  | leaf i w => exact absurd h (by simp [Tree.kind?])
  | node k' w cs =>
    cases h
    exact ⟨w, cs, rfl⟩

/-- `blockOf` lays out a block in step, whatever owns its braces. -/
theorem visits_blockOf (hr : Row c n [t])
    (hkind : t.kind? = some .block) (construct : Construct) (front : Option Role) :
    Visits c xs t.leaves (blockOf visit construct front t) := by
  obtain ⟨w, cs, rfl⟩ := eq_node_of_kind? hkind
  obtain ⟨-, hpaired⟩ := hr.node
  have hcs := (hr.children (by decide)).1
  rw [leaves_node]
  exact visits_braced hc hv (hcs.mono (by omega)) hpaired construct front .block

theorem visits_ownBlock (hr : Row c n [t])
    (hkind : t.kind? = some .block) (construct : Construct) :
    Visits c xs t.leaves (ownBlock visit construct t) :=
  visits_blockOf hc hv hr hkind construct _

omit hc hv in
theorem Steps.unbroken {idx : List Nat} {m : Emit Unit}
    (hm : Visits c xs idx m) : Steps c xs False A idx (unbroken m) := by
  refine .emit_bind (marks_mark rfl rfl) fun _ => ?_
  refine .emit_bind (marks_modify fun _ => ⟨rfl, rfl, rfl⟩) fun _ => .of_visits ?_
  refine hm.bind_emit fun _ => .mark_bind (marks_modify fun _ => ⟨rfl, rfl, rfl⟩) fun _ => ?_
  exact marks_mark rfl rfl

/-- `body` lays out the body of a control statement in step, behind a leaf.  The semicolon of an
empty one is the next leaf after the role that is queued for it. -/
theorem steps_body (hr : Row c n [t]) (construct : Construct) :
    Steps c xs False Past t.leaves (body visit kind construct t) := by
  unfold body
  split
  · next hkind => exact .of_visits (visits_ownBlock hc hv hr hkind construct)
  · next hkind =>
    obtain ⟨w, cs, rfl⟩ := eq_node_of_kind? hkind
    exact .before_open (hv.plain kind hr rfl)
  · refine .read_bind (fun _ => rfl) (.emit_bind marks_indent fun _ => ?_)
    refine .role_past (fun _ => id) ?_
    exact (Steps.unbroken (hv.visits kind t hr)).bind_emit fun _ => marks_dedent

end

/-! ## Conditions -/

/-- The trees behind the first closing parenthesis. -/
def behindParen (c : Context) : List Tree → List Tree
  | [] => []
  | .leaf i _ :: rest =>
    if (c.tokens.getD i default).kind = .parenEnd then rest else behindParen c rest
  | .node .. :: rest => behindParen c rest

section

variable {i w : Nat}

theorem behindParen_closing (h : (c.token i).kind = .parenEnd) :
    behindParen c (.leaf i w :: ts) = ts := by rw [behindParen, if_pos h]

theorem behindParen_leaf (h : (c.token i).kind ≠ .parenEnd) :
    behindParen c (.leaf i w :: ts) = behindParen c ts := by rw [behindParen, if_neg h]

end

theorem behindParen_suffix (ts : List Tree) : behindParen c ts <:+ ts := by
  fun_induction behindParen c ts with
  | case1 => exact suffix_rfl
  | case2 => exact suffix_cons _ _
  | case3 _ _ _ _ ih => exact ih.trans (suffix_cons _ _)
  | case4 _ _ _ _ ih => exact ih.trans (suffix_cons _ _)

/-- `behindParen` is what stands behind the first closing parenthesis, if there is one. -/
theorem behindParen_spec (ts : List Tree) : behindParen c ts = [] ∨
    ∃ front t, ts = front ++ t :: behindParen c ts ∧ t.IsSign (kindOf c.tokens) .parenEnd := by
  fun_induction behindParen c ts with
  | case1 => exact .inl rfl
  | case2 i v rest hk => exact .inr ⟨[], .leaf i v, rfl, congrArg some hk⟩
  | case3 i v rest hk ih =>
    refine ih.imp_right ?_
    rintro ⟨front, t, hrest, hsign⟩
    exact ⟨.leaf i v :: front, t, congrArg _ hrest, hsign⟩
  | case4 k v cs rest ih =>
    refine ih.imp_right ?_
    rintro ⟨front, t, hrest, hsign⟩
    exact ⟨.node k v cs :: front, t, congrArg _ hrest, hsign⟩

section

variable (hc : Reading c xs) (hv : Follows c xs n visit)
include hc hv

variable {α : Type} {f : List Tree → Emit α}

/-- `condition` is laid out in step, and what goes on behind it. -/
theorem steps_condition (hr : Row c n ts) (paren : ParenKind) (first : Bool)
    (hf : Steps c xs False Past (leavesAll (behindParen c ts)) (f (behindParen c ts))) :
    Steps c xs False Past (leavesAll ts) (condition visit kind paren first ts >>= f) := by
  induction ts generalizing first with
  | nil => exact .look (fun _ => .pure _) hf
  | cons t ts ih =>
    have hnext {m : Emit Unit} (hm : Visits c xs t.leaves m)
        (hbehind : behindParen c (t :: ts) = behindParen c ts) :
        Steps c xs False Past (leavesAll (t :: ts))
          ((m >>= fun _ => condition visit kind paren false ts) >>= f) := by
      rw [hbehind] at hf
      rw [bind_assoc]
      exact .cons_past hr (.of_visits hm) (.inr fun _ => id) fun _ => ih hr.tail false hf
    cases t with
    | node k w cs => exact hnext (hv.visits kind _ hr.head) rfl
    | leaf i w =>
      rw [condition, bind_assoc]
      refine .kindAt_bind ?_
      have hleaf {k : TokenKind} (hk : (c.token i).kind = k) (hne : k ≠ .parenEnd) :
          behindParen c (.leaf i w :: ts) = behindParen c ts := behindParen_leaf (hk ▸ hne)
      split
      · next hk =>
        split
        · exact hnext (.at_leaf (visits_openParen hc (by rw [hk]; rfl))) (hleaf hk (by decide))
        · exact hnext (.at_leaf (visits_leaf hc)) (hleaf hk (by decide))
      · next hk =>
        rw [behindParen_closing hk] at hf
        rw [bind_assoc]
        refine .cons_past hr (.at_leaf (.of_visits ?_)) (.inr fun _ => id) fun _ =>
          .look (fun _ => .pure _) hf
        exact visits_closeParen hc (by rw [hk]; rfl)
      · next hk =>
        exact hnext (.at_leaf (visits_op hc (by rw [hk]; decide))) (hleaf hk (by decide))
      · next hk =>
        exact hnext (.at_leaf (visits_op hc (by rw [hk]; decide))) (hleaf hk (by decide))
      · next hk _ _ => exact hnext (.at_leaf (visits_leaf hc)) (behindParen_leaf hk)

/-! ## Control flow -/

/-- `conditional` is laid out in step, and what goes on behind it; a role may wait for the word. -/
theorem steps_conditional (hr : Row c n ts) (hled : Led (kindOf c.tokens) ts)
    (paren : ParenKind) (construct : Construct)
    (hf : Steps c xs False Past (leavesAll (behindParen c ts.tail).tail)
      (f (behindParen c ts.tail).tail)) :
    Steps c xs W A (leavesAll ts) (conditional visit kind ts paren construct >>= f) := by
  obtain ⟨word, rest, -, rfl, -⟩ := id hled
  rw [conditional, bind_assoc]
  refine .word hv hr (startsPlain_of_led hled) ?_
  rw [bind_assoc]
  refine steps_condition hc hv hr.tail paren true ?_
  have hbehind := hr.tail.sublist (behindParen_suffix (c := c) rest).sublist
  rw [tail_cons] at hf
  cases hrest : behindParen c rest with
  | nil =>
    rw [hrest] at hf
    exact .look (fun _ => .pure _) hf
  | cons u us =>
    rw [hrest] at hf hbehind
    dsimp only
    rw [bind_assoc]
    exact .cons_past hbehind (steps_body hc hv hbehind.head construct) (.inr fun _ => id) fun _ =>
      .look (fun _ => .pure _) hf

theorem steps_conditionalOnly (hr : Row c n ts) (hled : Led (kindOf c.tokens) ts)
    (paren : ParenKind) (construct : Construct) :
    Steps c xs W A (leavesAll ts) (conditionalOnly visit kind ts paren construct) :=
  steps_conditional (f := fun _ => pure ()) hc hv hr hled paren construct (.none (fun _ => id) .pure)

omit hc hv in
theorem startsPlain_of_isKind (h : t.isKind .elseIfClause = true ∨ t.isKind .elseClause = true) :
    startsPlain c t = true := by
  cases t with
  | leaf i v => rcases h with h | h <;> cases h
  | node k v cs =>
    have hk : k = .elseIfClause ∨ k = .elseClause := by
      simpa [Tree.isKind, Tree.kind?] using h
    rcases hk with rfl | rfl <;> rfl

theorem visits_ifStmt (hr : Row c n ts)
    (hformed : Tree.Formed (kindOf c.tokens) .ifStmt ts) :
    Visits c xs (leavesAll ts) (ifStmt visit kind ts) := by
  obtain ⟨hled, hclauses⟩ := hformed
  refine steps_conditional hc hv hr hled _ _ (.of_visits ?_)
  have hsub := (tail_sublist _).trans (behindParen_suffix (c := c) ts.tail).sublist
  refine visits_forM (hr.sublist (hsub.trans (tail_sublist ts))) fun u hu hru => ?_
  refine .before_open (hv.plain kind hru ?_)
  -- behind the condition and the body there are only clauses, and each starts with its word
  rcases behindParen_spec (c := c) ts.tail with hnil | ⟨front, t, htail, hsign⟩
  · rw [hnil] at hu
    cases hu
  · obtain ⟨word, rest, kind', rfl, -⟩ := hled
    rw [tail_cons] at htail hu
    refine startsPlain_of_isKind (hclauses (word :: front) t _ (congrArg _ htail) hsign u ?_)
    rwa [drop_one]

theorem steps_elseClause (hr : Row c n ts) (hled : Led (kindOf c.tokens) ts) :
    Steps c xs W A (leavesAll ts) (elseClause visit kind ts) := by
  unfold elseClause
  split
  · next word t rest =>
    refine .word hv hr (startsPlain_of_led hled) (.only (.ite ?_ ?_) (.inr fun _ => id))
    · exact .role_past (fun _ => id) (.of_visits (hv.visits kind t hr.tail.head))
    · exact steps_body hc hv hr.tail.head .elseBranch
  · exact steps_visitAll hv hr fun _ => hled

theorem visits_doParts (hr : Row c n ts) (k : Nat) (hk : ts.length ≤ k) :
    Visits c xs (leavesAll ts) (doParts visit kind k ts) := by
  induction k generalizing ts with
  | zero =>
    obtain rfl := eq_nil_of_length_eq_zero (Nat.le_zero.mp hk)
    exact .nothing .pure
  | succ k ih =>
    cases ts with
    | nil => exact .nothing .pure
    | cons t ts =>
      have hlen : ts.length ≤ k := Nat.le_of_succ_le_succ hk
      unfold doParts
      refine .look (goes_leafKind? c t) ?_
      split
      · next hkind =>
        refine .word hv hr (startsPlain_of_leafKind hkind (by decide)) ?_
        split
        · exact .nothing .pure
        · refine .cons_past hr.tail (steps_body hc hv hr.tail.head .doLoop) (.inr fun _ => id) ?_
          exact fun _ => .of_visits (ih hr.tail.tail (by simp at hlen; omega))
      · next hkind =>
        refine .before_open (.word hv hr (startsPlain_of_leafKind hkind (by decide)) ?_)
        refine steps_condition hc hv hr.tail _ _ (.of_visits ?_)
        have hsuffix := behindParen_suffix (c := c) ts
        exact ih (hr.tail.sublist hsuffix.sublist) (hsuffix.length_le.trans hlen)
      · next i hkind hleaf =>
        refine .cons hr ?_ fun _ => ih hr.tail hlen
        rw [leaves_of_leafIndex? hleaf]
        exact visits_semi hc (kind_of_leafKind hkind hleaf)
      · exact .cons hr (hv.visits kind t hr.head) fun _ => ih hr.tail hlen

theorem visits_forPart (hr : Row c n [t]) : Visits c xs t.leaves (forPart visit kind t) := by
  unfold forPart
  split
  · next i w =>
    rw [leaves_leaf]
    refine .kindAt_bind ?_
    split
    · next hk =>
      exact (visits_between hc (ahead_of_ne (by rw [hk]; decide))).bind_role (.inl (by simp))
    · next hk => exact visits_comma hc hk
    · exact visits_leaf hc
  · exact hv.visits kind _ hr

/-- `forStmt` is laid out in step, since its parentheses are in order. -/
theorem visits_forStmt (hr : Row c n ts)
    (hpaired : Paired (kindOf c.tokens) .parenBegin .parenEnd ts) :
    Visits c xs (leavesAll ts) (forStmt visit kind ts) := by
  obtain ⟨opened?, hopened, hopen, -⟩ := findSign?_spec c (· == .parenBegin) ts
  obtain ⟨closed?, hclosed, hclose, -⟩ := findSign?_spec c (· == .parenEnd) ts
  refine .look hopened (.look hclosed ?_)
  split
  · next opened closed =>
    have hopen := hopen _ rfl
    have hclose := hclose _ rfl
    have hlt := hopen.lt_of_paired hpaired (by decide) hclose
    obtain ⟨t, u, ht, hu, hts⟩ := hopen.split_two hclose hlt
    dsimp only
    generalize ts.take opened.1 = as at hts ⊢
    generalize (ts.take closed.1).drop (opened.1 + 1) = bs at hts ⊢
    generalize ts.drop (closed.1 + 1) = ds at hts ⊢
    rw [hts] at hr ⊢
    have hrt : Row c n (t :: (bs ++ u :: ds)) := hr.right
    have hras : Row c n as := hr.left
    have hrbs : Row c n bs := hrt.tail.left
    have hru : Row c n (u :: ds) := hrt.tail.right
    have hk : isOpenSign (c.token opened.2).kind = true := by
      rw [hopen.kind_eq]
      rfl
    -- from behind the opening parenthesis on
    have hrest {m : Emit Unit} (hm : Steps c xs False Past (leavesAll ds) m) (width : Nat)
        (broken : Bool) :
        Steps c xs False (After xs opened.2) (leavesAll (bs ++ u :: ds)) (do
          if broken then indent width
          role (.afterLeftParen .forHead)
          mark .anchor
          bs.forM (forPart visit kind)
          mark .anchorEnd
          if broken then dedentBefore width
          closeParen .forHead closed.2
          m) := by
      refine .optional marks_indent (.role_bind hc ?_)
      refine .emit_bind marks_anchor fun _ => .of_visits (.split hrt.tail ?_ fun _ => ?_)
      · exact visits_forM hrbs fun t _ ht => visits_forPart hc hv ht
      · refine .emit_bind marks_anchorEnd fun _ => .optional marks_dedentBefore ?_
        refine .cons_past hru ?_ (.inl (by simp [hu])) fun _ => hm
        rw [hu]
        exact visits_closeParen hc (by rw [hclose.kind_eq]; rfl)
    have hhead {m : Emit Unit} (hm : Steps c xs False Past (leavesAll ds) m) (broken : Bool) :
        Visits c xs (leavesAll (as ++ t :: (bs ++ u :: ds))) (do
        visitAll visit kind as
        before (.beforeParen .forHead)
        leaf opened.2
        if broken then indent c.style.indent.continuationSize
        role (.afterLeftParen .forHead)
        mark .anchor
        bs.forM (forPart visit kind)
        mark .anchorEnd
        if broken then dedentBefore c.style.indent.continuationSize
        closeParen .forHead closed.2
        m) := by
      refine .split hr (visits_visitAll hv hras) fun _ => ?_
      exact .before_open (.leaf_cons hc hrt ht (fun _ => ne_echo_of_isOpenSign hk) (hrest hm _ _))
    cases ds with
    | nil =>
      have hend := hhead (m := pure ()) (.nothing .pure)
      refine .read_bind (fun _ => rfl) (.ite (.emit_bind .pure fun _ => hend _) ?_)
      exact .emit_bind marks_signs fun _ => .emit_bind marks_breaksAround fun _ => hend _
    | cons d ds =>
      have hbody := hhead (m := body visit kind .forLoop d)
        (.only (steps_body hc hv hru.tail.head .forLoop) (.inr fun _ => id))
      refine .read_bind (fun _ => rfl) (.ite (.emit_bind .pure fun _ => hbody _) ?_)
      exact .emit_bind marks_signs fun _ => .emit_bind marks_breaksAround fun _ => hbody _
  · exact visits_visitAll hv hr

theorem visits_switchStmt (hr : Row c n ts) (hled : Led (kindOf c.tokens) ts) :
    Visits c xs (leavesAll ts) (switchStmt visit kind ts) := by
  obtain ⟨word, rest, -, rfl, -⟩ := id hled
  refine .word hv hr (startsPlain_of_led hled) (steps_condition hc hv hr.tail _ _ (.of_visits ?_))
  exact visits_visitAll hv (hr.tail.sublist (behindParen_suffix rest).sublist)

omit hc hv in
/-- `switchParts`: each of the cases has a leaf, so that all but the first start behind one. -/
theorem steps_switchParts (hv : Follows c xs n visit) (hr : Row c n ts)
    (hcases : ∀ t ∈ ts, t.isNode = true → t.isKind .caseClause = true) (size : Nat) (first : Bool)
    (hfirst : first = false → ∀ k, A k → Past k) :
    Steps c xs False A (leavesAll ts) (switchParts visit kind size first ts) := by
  induction ts generalizing first A with
  | nil => exact .nothing .pure
  | cons t ts ih =>
    have hrest (first : Bool) := ih (A := Past) hr.tail
      (fun u hu => hcases u (mem_cons_of_mem t hu)) first fun _ _ => id
    rw [switchParts]
    refine .look (goes_leafKind? c t) ?_
    split
    · next hkind =>
      refine .before_open (.word hv hr (startsPlain_of_leafKind hkind (by decide)) ?_)
      exact .emit_bind marks_indent fun _ => .role_past (fun _ => id) (hrest first)
    · next hkind =>
      refine .emit_bind marks_dedentBefore fun _ => .before_open ?_
      exact .word hv hr (startsPlain_of_leafKind hkind (by decide)) (hrest first)
    · -- a leaf or a case, and a case starts with its word
      have hne : t.leaves ≠ [] := by
        cases t with
        | leaf i w => simp
        | node k w cs =>
          obtain rfl : k = .caseClause := by
            simpa [Tree.isKind, Tree.kind?] using hcases _ mem_cons_self rfl
          rw [leaves_node]
          exact leavesAll_ne_nil_of_led (hr.head.children (by decide)).2
      refine .lead_if (fun h => hfirst (by simpa using h)) ?_
      exact .cons_past hr (.of_visits (hv.visits kind t hr.head)) (.inl hne) fun _ => hrest false

omit hc hv in
theorem visits_switchBody (hv : Follows c xs n visit) (hr : Row c n ts)
    (hcases : Tree.Formed (kindOf c.tokens) .switchBody ts) :
    Visits c xs (leavesAll ts) (switchBody visit kind ts) :=
  .read_bind (fun _ => rfl) (steps_switchParts hv hr hcases _ _ nofun)

theorem visits_labelPart (hr : Row c n [t]) :
    Visits c xs t.leaves (labelPart visit kind t) := by
  refine .emit_bind marks_leafKind? fun _ => ?_
  split
  · next hleaf =>
    rw [leaves_of_leafIndex? hleaf]
    exact visits_keyword hc
  · exact hv.visits kind t hr

variable {i : Nat}

omit hc hv in
theorem eq_leaf_of_leafIndex? (h : t.leafIndex? = some i) : ∃ w, t = .leaf i w := by
  cases t with
  | leaf j w =>
    cases h
    exact ⟨w, rfl⟩
  | node k w cs => exact absurd h (by simp [leafIndex?])

omit hc hv in
/-- A row up to an index, the tree there, and those behind it. -/
theorem split_at (ts : List Tree) (k : Nat) :
    ts = ts.take k ++ (ts[k]?.toList ++ ts.drop (k + 1)) := by
  rw [← drop_eq_getElem?_toList_append, take_append_drop]

/-- The label and the statements of a case, given where the label ends. -/
theorem visits_caseParts (hr : Row c n ts) (hled : Led (kindOf c.tokens) ts) (k : Nat) :
    Visits c xs (leavesAll ts) (do
      (ts.take k).forM (labelPart visit kind)
      match ts[k]?.bind leafIndex? with
      | some i => thenLeaf .beforeColon i
      | none => pure ()
      let items := (ts.drop (k + 1)).filter Tree.isNode
      if !items.isEmpty then
        let size := (← read).style.indent.indentSize
        indent size
        statements visit kind .caseBody items
        dedentBefore size) := by
  have hsplit := split_at ts k
  -- without a sign the label is not its word alone, which would be a leaf
  have hword (hnone : ts[k]?.bind leafIndex? = none) : leavesAll (ts.take k) ≠ [] := by
    obtain ⟨i, w, rest, rfl, -⟩ := exists_leaf_of_led hled
    cases k with
    | zero => cases hnone
    | succ k => simp
  dsimp only
  generalize ts.take k = as at hsplit hword ⊢
  generalize ts[k]? = t? at hsplit hword ⊢
  generalize ts.drop (k + 1) = bs at hsplit ⊢
  rw [hsplit] at hr ⊢
  have hras : Row c n as := hr.left
  have hrt : Row c n (t?.toList ++ bs) := hr.right
  have hrbs : Row c n (bs.filter Tree.isNode) :=
    hrt.sublist (filter_sublist.trans (sublist_append_right _ _))
  have hitems : Steps c xs False Past (leavesAll bs) (do
      if !(bs.filter Tree.isNode).isEmpty then
        let size := (← read).style.indent.indentSize
        indent size
        statements visit kind .caseBody (bs.filter Tree.isNode)
        dedentBefore size) := by
    refine .ite (.read_bind (fun _ => rfl) (.emit_bind marks_indent fun _ => ?_))
      (.none (fun _ => id) .pure)
    refine Steps.bind_emit ?_ fun _ => marks_dedentBefore
    exact (steps_statements hv hrbs .caseBody).sublist filter_sublist (.inr fun _ => id)
  have hlabels : Visits c xs (leavesAll as) (as.forM (labelPart visit kind)) :=
    visits_forM hras fun t _ ht => visits_labelPart hc hv ht
  cases hlast : t?.bind leafIndex? with
  | some i =>
    obtain ⟨t, rfl, ht⟩ := Option.bind_eq_some_iff.mp hlast
    obtain ⟨w, rfl⟩ := eq_leaf_of_leafIndex? ht
    refine .split hr hlabels fun _ => .cons_past hrt (.at_leaf ?_) (.inl (by simp)) fun _ => hitems
    exact visits_thenLeaf hc nofun
  | none =>
    refine .split_past hr hlabels (.inl (hword hlast)) fun _ => ?_
    exact hitems.sublist (sublist_append_right _ _) (.inr fun _ => id)

/-- `caseClause` is laid out in step, whether or not a sign ends its label. -/
theorem visits_caseClause (hr : Row c n ts) (hled : Led (kindOf c.tokens) ts) :
    Visits c xs (leavesAll ts) (caseClause visit kind ts) := by
  obtain ⟨sign?, hfound, -⟩ := findSign?_spec c (fun k => k == .colon || k == .semiColon) ts
  exact .look hfound (visits_caseParts hc hv hr hled _)

theorem visits_tryStmt (hr : Row c n ts) :
    Visits c xs (leavesAll ts) (tryStmt visit kind ts) := by
  refine visits_forM hr fun t _ ht => ?_
  split
  · next hkind => exact visits_ownBlock hc hv ht hkind .tryBlock
  · next hkind =>
    obtain ⟨w, cs, rfl⟩ := eq_node_of_kind? hkind
    exact .before_open (hv.plain kind ht rfl)
  · next hkind =>
    obtain ⟨w, cs, rfl⟩ := eq_node_of_kind? hkind
    exact .before_open (hv.plain kind ht rfl)
  · exact hv.visits kind t ht

/-- `Visits` for a child that is a block of the construct, or anything else. -/
theorem visits_blockOr (hr : Row c n [t])
    (construct : Construct) :
    Visits c xs t.leaves
      (if t.isKind .block then ownBlock visit construct t else visit kind t) := by
  split
  · next hkind => exact visits_ownBlock hc hv hr (beq_iff_eq.mp hkind) construct
  · exact hv.visits kind t hr

/-- `catchParts` is laid out in step.  A role may wait for its word. -/
theorem steps_catchParts (hr : Row c n ts) (hw : W → Led (kindOf c.tokens) ts) :
    Steps c xs W A (leavesAll ts) (catchParts visit kind ts) := by
  induction ts generalizing W A with
  | nil => exact .relax (fun h => leavesAll_ne_nil_of_led (hw h) leavesAll_nil) (.nothing .pure)
  | cons t ts ih =>
    have hrest : Visits c xs (leavesAll ts) (catchParts visit kind ts) := ih hr.tail False.elim
    cases t with
    | node k w cs =>
      refine .relax (fun h => ?_) (.of_visits ?_)
      · obtain ⟨_, _, _, hcons, _⟩ := exists_leaf_of_led (hw h)
        cases hcons
      · unfold catchParts
        split
        · next hkind =>
          have hblock := visits_ownBlock hc hv hr.head (beq_iff_eq.mp hkind) .catchBlock
          exact .cons hr hblock fun _ => hrest
        · exact .cons hr (hv.visits kind _ hr.head) fun _ => hrest
    | leaf i w =>
      have hplain : W → (c.token i).kind ≠ .openTagWithEcho := fun h => by
        simpa [startsPlain] using (startsPlain_of_led (hw h)).2
      rw [catchParts]
      dsimp only
      refine .kindAt_bind ?_
      split
      · next hk => exact .cons hr (.at_leaf (steps_openParen hc (by rw [hk]; rfl))) fun _ => hrest
      · next hk => exact .cons hr (.at_leaf (steps_closeParen hc (by rw [hk]; rfl))) fun _ => hrest
      · next hk =>
        exact .cons hr (.at_leaf (steps_op hc (by rw [hk]; decide))) fun _ => hrest
      · refine .cons_past hr (.at_leaf (steps_leaf hc hplain))
          (.inl (by simp)) fun _ => ?_
        split
        · exact .emit_bind marks_leafKind? fun _ => .role_if (fun _ => id) (.of_visits hrest)
        · exact .of_visits hrest
      · refine .cons hr (.at_leaf ?_) fun _ => hrest
        exact steps_leaf hc hplain

theorem steps_finallyClause (hr : Row c n ts) (hled : Led (kindOf c.tokens) ts) :
    Steps c xs W A (leavesAll ts) (finallyClause visit kind ts) := by
  obtain ⟨i, w, rest, rfl, -⟩ := exists_leaf_of_led hled
  refine .word (t := .leaf i w) hv hr (startsPlain_of_led hled) (.of_visits ?_)
  exact visits_forM hr.tail fun _ _ ht => visits_blockOr hc hv ht .finallyBlock

/-- `declareParts` has the body of directives behind their parentheses. -/
theorem steps_declareParts (hr : Row c n ts) (inHead : Bool)
    (hbody : inHead = false → ∀ k, A k → Past k) :
    Steps c xs False A (leavesAll ts) (declareParts visit kind inHead ts) := by
  induction ts generalizing inHead A with
  | nil => exact .nothing .pure
  | cons t ts ih =>
    have hrest {A : Nat → Prop} := ih (A := A) hr.tail
    cases t with
    | node k w cs =>
      unfold declareParts
      cases inHead with
      | true => exact .cons hr (.of_visits (hv.visits kind _ hr.head)) fun _ => hrest true nofun
      | false =>
        have hA := hbody rfl
        refine .cons_past hr (.of_cursor (steps_body hc hv hr.head .other) hA) (.inr hA) fun _ => ?_
        exact hrest false fun _ _ => id
    | leaf i w =>
      have hnext {m : Emit Unit} (inHead : Bool) (hm : Visits c xs [i] m) :
          Steps c xs False A (leavesAll (.leaf i w :: ts)) (do
            m
            declareParts visit kind inHead ts) :=
        .cons_past hr (.at_leaf (.of_visits hm)) (.inl (by simp)) fun _ => hrest inHead fun _ _ => id
      rw [declareParts]
      refine .kindAt_bind ?_
      split
      · next hk => exact hnext _ (visits_openParen hc (by rw [hk]; rfl))
      · next hk => exact hnext _ (visits_closeParen hc (by rw [hk]; rfl))
      · next hk =>
        exact hnext _ (visits_op hc (by rw [hk]; decide))
      · next hk => exact hnext _ (visits_comma hc hk)
      · next hk => exact hnext _ (visits_semi hc hk)
      · exact hnext _ (visits_leaf hc)

theorem visits_namespaceDecl (hr : Row c n ts) :
    Visits c xs (leavesAll ts) (namespaceDecl visit kind ts) := by
  refine visits_forM hr fun t _ ht => ?_
  split
  · rw [leaves_leaf]
    exact visits_walkLeaf hc
  · exact visits_ownBlock hc hv ht rfl .other
  · exact hv.visits kind _ ht

/-- `groupUseList` is laid out in step; the role that is queued waits for the brace of the names. -/
theorem visits_groupUseList (hr : Row c n ts) (hled : Led (kindOf c.tokens) ts) :
    Visits c xs (leavesAll ts) (groupUseList visit kind ts) :=
  .read_bind (fun _ => rfl) (.before_open (steps_list hc hv hr (fun _ => hled) _ none))

end

end Statements

end CodeLayout.Annotate
