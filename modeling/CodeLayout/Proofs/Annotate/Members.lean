import CodeLayout.Proofs.Annotate.Groups
import CodeLayout.Proofs.Annotate.Lead

/-!
# Members are rendered

Every member of an alignment group gets one mark where its text starts and one before its operator,
in this order, with one exception: while a property or a constant waits for its name, the attributes
in front of the name may make groups of their own, and then the property is lost
(`annotate_members`).

An array and a choice by value visit the node of a member right after they add it.  The node of a
statement is met on the way through the statement (`leads_walk`, `leads_typedParts`), where only
trees with other leaves come before it.
-/

namespace CodeLayout

open List
open CodeLayout.Tree (bindings)
open Parsed (kindOf ofSource)

namespace Annotate

/-- One of the children is a sign that gives a value. -/
def Signed (c : Context) (t : Tree) : Prop :=
  ∃ u ∈ t.children, u.IsOneOf (kindOf c.tokens) bindings

/-- A member is rendered, or is lost. -/
def Settled (strict : Prop) (φ : Phase) : Prop := φ = .done ∨ φ = .lost ∧ ¬ strict

/-- What is asked of the visits of children: they turn phases and take the leaves, a node with a sign
renders the member that waits for it, and so does a statement whose node it waits for, or it loses the
member. -/
structure Settles (m : MemberRef) (strict : Prop) (c : Context) (n : Nat) (visit : Visit) : Prop where
  tree : ∀ {L flat} kind {t}, Rows (Sited c strict L flat) n [t] →
    Relates c (Carries m strict L flat) (visit kind t)
  takes : ∀ kind {t}, Wholes c n [t] → Relates c (Taken c t.leaves []) (visit kind t)
  member : ∀ {L} kind {t k}, Rows (Sited c strict L False) n [t] → t.kind? = some k →
    holdsSign k = true → Signed c t → Leads c m (· = .waiting ⟨k, t.first?⟩) (· = .done) (visit kind t)
  item : ∀ {L} kind {t key target k}, Rows (Sited c strict L False) n [t] →
    alignTarget? t = some (key, target) → target.kind? = some k → Signed c target →
    Leads c m (· = .waiting ⟨k, target.first?⟩) (Settled strict) (visit kind t)

variable {m : MemberRef} {strict flat : Prop} {L : List Nat} {c : Context} {n : Nat} {visit : Visit}
  {kind : NodeKind} {t : Tree} {ts : List Tree}

variable {s : State} {α : Type} {G : AlignTable → Prop} {cs : List Tree} {group : Nat}

theorem signed_of_findLeaf? {sign : TokenKind} {s' : State} {found : Option Nat}
    (hsign : sign ∈ bindings) (hrun : Runs c (findLeaf? t sign) s found s')
    (hfound : found.isSome = true) : Signed c t := by
  cases hrun
  obtain ⟨i, hi⟩ := Option.isSome_iff_exists.mp hfound
  have hmem := mem_of_find?_eq_some hi
  have hkind := find?_some hi
  obtain ⟨u, hu, hleaf⟩ := mem_filterMap.mp hmem
  obtain ⟨w, rfl⟩ := eq_leaf_of_leafIndex? hleaf
  exact ⟨.leaf i w, hu, sign, hsign, congrArg some (beq_iff_eq.mp hkind)⟩

/-! ## Lists of statements -/

/-- From a state on, the step ends as `P` says, if it answers. -/
def Ends {α : Type} (c : Context) (step : Emit α) (s : State) (P : α → State → Prop) : Prop :=
  ∀ a s', Runs c step s a s' → P a s'

namespace Ends

variable {α β : Type} {step step' : Emit α} {f : α → Emit β} {s : State} {P : β → State → Prop}

theorem bind (h : Ends c step s fun a s₁ => Ends c (f a) s₁ P) : Ends c (step >>= f) s P := by
  intro b s₂ hrun
  obtain ⟨a, s₁, hrun₁, hrun₂⟩ := hrun.of_bind
  exact h a s₁ hrun₁ b s₂ hrun₂

theorem look_bind (hstep : Looks c step) (h : ∀ a, Runs c step s a s → Ends c (f a) s P) :
    Ends c (step >>= f) s P := by
  refine .bind fun a s₁ hrun => ?_
  obtain rfl := hstep s a s₁ hrun
  exact h a hrun

theorem pure {P : α → State → Prop} {a : α} (h : P a s) : Ends c (Pure.pure a) s P := by
  intro a' s' hrun
  cases hrun
  exact h

end Ends

/-- A statement joins a group of assignments with the node that it answers, or none. -/
def Joins (c : Context) (t : Tree) (s : State) (group : Option (Nat × AlignKey)) (s₁ : State) : Prop :=
  (group = none ∧ s₁ = s) ∨ ∃ key target g width s₀, alignTarget? t = some (key, target) ∧
    Signed c target ∧ group = some (g, key) ∧ (s₀ = s ∨ Runs c (newGroup .assignment) s g s₀) ∧
    s₀.groups.kindOf? g = some .assignment ∧ Runs c (awaitMember g width target) s₀ () s₁

/-- The group of the statements before is one of assignments. -/
def Assigns (group : Option (Nat × AlignKey)) (groups : AlignTable) : Prop :=
  ∀ g key, group = some (g, key) → groups.kindOf? g = some .assignment

theorem ends_joinStatements {prev : Option Tree} {group : Option (Nat × AlignKey)}
    (hgroup : Assigns group s.groups) : Ends c (joinStatements prev group t) s (Joins c t s) := by
  unfold joinStatements
  split
  · exact .pure (.inl ⟨rfl, rfl⟩)
  · next key target htarget =>
    refine .look_bind looks_findLeaf? fun found hfound => ?_
    split
    · exact .pure (.inl ⟨rfl, rfl⟩)
    · next hsome =>
      have hsigned : Signed c target :=
        signed_of_findLeaf? (by decide) hfound (Option.isSome_iff_ne_none.mpr (by simpa using hsome))
      have hawait {g : Nat} {s₀ : State} (hs₀ : s₀ = s ∨ Runs c (newGroup .assignment) s g s₀)
          (hkind : s₀.groups.kindOf? g = some .assignment) (width : Option Nat) : Ends c (do
            awaitMember g width target
            return some (g, key)) s₀ (Joins c t s) := by
        refine .bind fun _ s₁ hrun => .pure (.inr ?_)
        exact ⟨key, target, g, width, s₀, htarget, hsigned, rfl, hs₀, hkind, hrun⟩
      have hnew (width : Option Nat) : Ends c (do
          let g ← newGroup .assignment
          awaitMember g width target
          return some (g, key)) s (Joins c t s) := by
        refine .bind fun g s₀ hrun => hawait (.inr hrun) ?_ width
        cases hrun
        exact AlignTable.kindOf?_newGroup _ _
      have hold {g : Nat} {k : AlignKey} (hg : group = some (g, k)) (width : Option Nat) :
          Ends c (do
            let g ← pure g
            awaitMember g width target
            return some (g, key)) s (Joins c t s) :=
        .bind (.pure (hawait (.inl rfl) (hgroup g k hg) width))
      cases target.children.head? with
      | some lhs =>
        refine .look_bind looks_textOf fun _ _ => .bind (.pure ?_)
        split
        · refine .look_bind looks_separated fun _ _ => ?_
          split
          · exact hold rfl _
          · exact hnew _
        · exact hnew _
      | none =>
        refine .bind (.pure ?_)
        split
        · refine .look_bind looks_separated fun _ _ => ?_
          split
          · exact hold rfl _
          · exact hnew _
        · exact hnew _

/-- `alignTarget?` of a statement is the first node of its kind, or the first one at all. -/
theorem alignTarget?_eq_some {key : AlignKey} {target : Tree}
    (h : alignTarget? t = some (key, target)) :
    ∃ kind w front behind k, t = .node kind w (front ++ target :: behind) ∧ target.kind? = some k ∧
      ((kind = .exprStmt ∧ k = .assignExpr ∧ ∀ u ∈ front, u.isNode = false) ∨
        elementKind? kind = some k ∧ ∀ u ∈ front, u.isKind k = false) := by
  have hsingle {kind element : NodeKind} {key' : AlignKey} (hk : t.kind? = some kind)
      (hmap : (single? t element).map (key', ·) = some (key, target))
      (helement : elementKind? kind = some element) :
      ∃ kind w front behind k, t = .node kind w (front ++ target :: behind) ∧ target.kind? = some k ∧
        ((kind = .exprStmt ∧ k = .assignExpr ∧ ∀ u ∈ front, u.isNode = false) ∨
          elementKind? kind = some k ∧ ∀ u ∈ front, u.isKind k = false) := by
    obtain ⟨w, cs, rfl⟩ := eq_node_of_kind? hk
    obtain ⟨u, hu, heq⟩ := Option.map_eq_some_iff.mp hmap
    cases heq
    unfold single? at hu
    split at hu
    · next hfilter =>
      cases hu
      obtain ⟨front, behind, rfl, hfront, htarget, -⟩ := filter_eq_cons_iff.mp hfilter
      exact ⟨kind, w, front, behind, element, rfl, beq_iff_eq.mp htarget,
        .inr ⟨helement, fun u hu => Bool.eq_false_iff.mpr (hfront u hu)⟩⟩
    · cases hu
  unfold alignTarget? at h
  split at h
  · next hkind =>
    obtain ⟨w, cs, rfl⟩ := eq_node_of_kind? hkind
    split at h
    · next expr hhead =>
      split at h
      · next hassign =>
        cases h
        obtain ⟨rest, hnodes⟩ := head?_eq_some_iff.mp hhead
        obtain ⟨front, behind, rfl, hfront, -, -⟩ := filter_eq_cons_iff.mp hnodes
        exact ⟨.exprStmt, w, front, behind, .assignExpr, rfl, beq_iff_eq.mp hassign,
          .inl ⟨rfl, rfl, fun u hu => Bool.eq_false_iff.mpr (hfront u hu)⟩⟩
      · cases h
    · cases h
  · next hkind => exact hsingle hkind h rfl
  · next hkind => exact hsingle hkind h rfl
  · next hkind => exact hsingle hkind h rfl
  · cases h

/-- The step turns phases, if the groups are as `G` says. -/
def Guarded {α : Type} (m : MemberRef) (strict : Prop) (L : List Nat) (flat : Prop) (c : Context)
    (G : AlignTable → Prop) (step : Emit α) : Prop :=
  ∀ s a s', Runs c step s a s' → G s.groups → Carries m strict L flat s s'

theorem Guarded.inert_bind {β : Type} {step : Emit α} {f : α → Emit β}
    (hstep : Lays c Eq [] [] [] step) (hf : ∀ a, Guarded m strict L flat c G (f a)) :
    Guarded m strict L flat c G (step >>= f) := by
  intro s b s₂ hrun hG φ hφ
  obtain ⟨a, s₁, hrun₁, hrun₂⟩ := hrun.of_bind
  obtain ⟨hgroups, hφ₁⟩ := in_of_path (hstep s a s₁ hrun₁).1 hφ
  have := hf a s₁ b s₂ hrun₂ (hgroups ▸ hG) φ hφ₁
  rwa [Carried, hgroups] at this

theorem Guarded.ite {b : Prop} [Decidable b] {step step' : Emit α}
    (h : Guarded m strict L flat c G step) (h' : Guarded m strict L flat c G step') :
    Guarded m strict L flat c G (if b then step else step') := by
  split
  · exact h
  · exact h'

/-- `statementsAfter` turns phases; a member whose statement joins a group is rendered or lost. -/
theorem guarded_statementsAfter (hv : Settles m strict c n visit)
    (hts : Rows (Sited c strict L False) n ts) (hflat : ¬ flat) (place : Place) (prev : Option Tree)
    (group : Option (Nat × AlignKey)) :
    Guarded m strict L flat c (Assigns group)
      (statementsAfter visit kind place prev group ts) := by
  induction ts generalizing prev group with
  | nil =>
    intro s a s' hrun _
    cases hrun
    exact .refl _
  | cons t ts ih =>
    have hrest {group' : Option (Nat × AlignKey)} : Guarded m strict L flat c (Assigns group') (do
        afterDeclaration t
        statementsAfter visit kind place (some t) group' ts) :=
      .inert_bind lays_afterDeclaration fun _ => ih hts.tail _ _
    have hitem : Guarded m strict L flat c (Assigns group) (do
        let group ← joinStatements prev group t
        visit kind t
        afterDeclaration t
        statementsAfter visit kind place (some t) group ts) := by
      intro s b s' hrun₁ hassigns
      obtain ⟨group', s₁, hjoin, hrun₂⟩ := hrun₁.of_bind
      obtain ⟨⟨⟩, s₂, hvisit, hrun⟩ := hrun₂.of_bind
      have htree : Carries m strict L flat s₁ s₂ :=
        (hv.tree kind hts.head s₁ _ s₂ hvisit).mono (List.Subset.refl L) hflat
      rcases ends_joinStatements hassigns group' s₁ hjoin with ⟨rfl, rfl⟩ |
        ⟨key, target, g, width, s₀, htarget, hsigned, rfl, hs₀, hkind, hawait⟩
      · refine htree.trans (hrest s₂ b s' hrun fun g key h => ?_)
        cases h
      · obtain ⟨_, _, _, _, k, -, hk, -⟩ := alignTarget?_eq_some htarget
        have hnew : Carries m strict L flat s s₀ := by
          rcases hs₀ with rfl | hs₀
          · exact .refl _
          · exact carries_newGroup s g s₀ hs₀
        have hmember : Carries m strict L flat s₀ s₂ := by
          refine carries_await hk hflat hawait htree fun hgroup hin => ?_
          obtain ⟨hgrows, φ, hφ, hin'⟩ :=
            hv.item kind hts.head htarget hk hsigned s₁ _ s₂ hvisit _ rfl hin
          refine ⟨φ, hφ.imp_right fun ⟨hlost, hnot⟩ => ⟨hlost, hnot, ?_⟩, hin'⟩
          have hgrows₀ : s₀.groups.Extends s₁.groups := by
            rcases runs_awaitMember hk hawait with rfl | ⟨_, rfl, hgrows, -⟩
            · exact .refl _
            · exact hgrows
          rw [hgroup]
          exact hgrows _ _ (hgrows₀ _ _ hkind)
        refine hnew.trans fun φ hφ => (hmember φ hφ).trans fun hgrows => ?_
        refine hrest s₂ b s' hrun fun g' key' h => ?_
        cases h
        exact hgrows _ _ hkind
    rw [statementsAfter]
    dsimp only
    cases prev with
    | none => exact .ite (.inert_bind (lays_lead rfl) fun _ => hitem) hitem
    | some p =>
      refine .ite (.inert_bind (lays_lead rfl) fun _ => ?_) ?_
      · exact .inert_bind lays_blankRoles fun _ => hitem
      · exact .inert_bind lays_blankRoles fun _ => hitem

/-- A visit that `Settles` members `Keeps` the phases of all trees as they may turn. -/
theorem Settles.keeps (hv : Settles m strict c n visit) :
    Keeps (Carries m strict L flat) (Sited c strict L flat) c n visit where
  whole h := h.whole
  tree kind _ ht := hv.tree kind ht
  takes := hv.takes
  items place hkind hQ hcs hsub := by
    have hflat : ¬ flat := fun h =>
      absurd (makesGroups_of_listsStatements hkind) (by simp [hQ.quiet h])
    intro s a s' hrun
    exact guarded_statementsAfter hv ((hcs.subset hsub).relax (List.Subset.refl L)) hflat place none none
      s a s' hrun nofun

/-! ## Nodes with a sign -/

/-- A part of a name or key with its value. -/
def alignedPart (visit : Visit) (kind : NodeKind) (opKind : OpKind) (member : Option MemberRef)
    (u : Tree) : Emit Unit := do
  match ← leafKind? u, u.leafIndex? with
  | some k, some i =>
    if isBinding k then
      queueMember .align member
      op i opKind
    else leaf i
  | _, _ => visit kind u

/-- A part of an arm. -/
def armPart (visit : Visit) (kind : NodeKind) (member : Option MemberRef) (u : Tree) : Emit Unit := do
  match u with
  | .leaf i _ =>
    match ← kindAt i with
    | .doubleArrow =>
      queueMember .align member
      op i .keyValue
    | .comma => comma i
    | _ => leaf i
  | .node .. => visit kind u

theorem isBinding_iff {k : TokenKind} : isBinding k = true ↔ k ∈ bindings := by
  cases k <;> decide

section Parts

variable {member : Option MemberRef} {u : Tree} {ps : List (Pair c.style)}

/-- `Lays` for a sign with the mark of another member. -/
theorem lays_otherSign {i : Nat} {opKind : OpKind} (hne : member ≠ some m) :
    Lays c (Carries m strict L flat) [i] ps ps (do queueMember .align member; op i opKind) :=
  .bind (.emitCall (carries_queueMember (fun _ => isMarkOf_align) hne) emits_queueAlign) fun _ =>
    lays_between rfl rfl

theorem lays_alignedPart (hv : Settles m strict c n visit) (hu : Rows (Sited c strict L flat) n [u])
    (hmember : member ≠ some m ∨ ¬ u.IsOneOf (kindOf c.tokens) bindings)
    (opKind : OpKind) :
    Lays c (Carries m strict L flat) u.leaves ps ps (alignedPart visit kind opKind member u) := by
  unfold alignedPart
  cases u with
  | node k w cs => exact .known (runs_leafKind? c _) (hv.keeps.lays hu)
  | leaf i w =>
    refine .known (runs_leafKind? c _) ?_
    dsimp only [Tree.leafIndex?, Option.map_some]
    split
    · next hbinding =>
      rcases hmember with hne | hnot
      · exact .at_leaf (lays_otherSign hne)
      · exact absurd ⟨_, isBinding_iff.mp hbinding, rfl⟩ hnot
    · exact .at_leaf lays_leaf

theorem lays_armPart (hv : Settles m strict c n visit) (hu : Rows (Sited c strict L flat) n [u])
    (hmember : member ≠ some m ∨ ¬ u.IsOneOf (kindOf c.tokens) bindings) :
    Lays c (Carries m strict L flat) u.leaves ps ps (armPart visit kind member u) := by
  unfold armPart
  cases u with
  | node k w cs => exact hv.keeps.lays hu
  | leaf i w =>
    refine .at_leaf (.kindAt_bind ?_)
    split
    · next harrow =>
      rcases hmember with hne | hnot
      · exact lays_otherSign hne
      · exact absurd ⟨_, by decide, congrArg some harrow⟩ hnot
    · exact lays_between rfl rfl
    · exact lays_leaf

/-- A sign `Leads` its member from its mark to its end. -/
theorem leads_sign {i : Nat} {opKind : OpKind} :
    Leads c m (· = .started) (· = .done) (do queueMember .align (some m); op i opKind) := by
  refine .bind leads_queueAlign fun _ => ?_
  have hop : Relates c (Carries m True [] False) (op i opKind) :=
    carries_of_lays (lays_between rfl rfl)
  exact .of_settled hop fun φ h => h ▸ ⟨Phase.noConfusion, fun _ => Phase.noConfusion⟩

theorem leads_alignedPart (hu : u.IsOneOf (kindOf c.tokens) bindings) (opKind : OpKind) :
    Leads c m (· = .started) (· = .done) (alignedPart visit kind opKind (some m) u) := by
  obtain ⟨i, w, rfl, hi⟩ := eq_leaf_of_isOneOf hu
  unfold alignedPart
  refine .known (runs_leafKind? c _) ?_
  dsimp only [Tree.leafIndex?, Option.map_some]
  rw [if_pos (isBinding_iff.mpr hi)]
  exact leads_sign

theorem leads_armPart (hu : u.IsSign (kindOf c.tokens) .doubleArrow) :
    Leads c m (· = .started) (· = .done) (armPart visit kind (some m) u) := by
  obtain ⟨i, w, rfl, hi⟩ := eq_leaf_of_isOneOf ⟨_, mem_singleton_self _, hu⟩
  unfold armPart
  refine .known (fun _ => rfl) ?_
  rw [mem_singleton.mp hi]
  exact leads_sign

/-- The layout of the parts of a node with a sign. -/
def signPart (visit : Visit) (kind : NodeKind) : Option MemberRef → Tree → Emit Unit :=
  if kind == .matchArm then armPart visit kind
  else alignedPart visit kind (if kind == .arrayElement then .keyValue else .assign)

theorem visitNode_eq_marked (hkind : holdsSign kind = true) (parent : NodeKind) :
    visitNode visit parent kind t = marked t (signPart visit kind) := by
  cases kind <;> first | rfl | cases hkind

theorem lays_signPart (hv : Settles m strict c n visit) (hu : Rows (Sited c strict L flat) n [u])
    (hmember : member ≠ some m ∨ ¬ u.IsOneOf (kindOf c.tokens) bindings) :
    Lays c (Carries m strict L flat) u.leaves ps ps (signPart visit kind member u) := by
  unfold signPart
  split
  · exact lays_armPart hv hu hmember
  · exact lays_alignedPart hv hu hmember _

end Parts

/-- The children have one sign that gives a value, or none. -/
def Binds (c : Context) (kind : NodeKind) (cs : List Tree) : Prop :=
  (∀ u ∈ cs, ¬ u.IsOneOf (kindOf c.tokens) bindings) ∨
  ∃ front sign behind, cs = front ++ sign :: behind ∧
    (∀ u ∈ front ++ behind, ¬ u.IsOneOf (kindOf c.tokens) bindings) ∧
    sign.IsOneOf (kindOf c.tokens) bindings ∧
    (kind = .matchArm → sign.IsSign (kindOf c.tokens) .doubleArrow)

theorem binds_of_whole (hkind : holdsSign kind = true)
    (hwhole : Tree.Whole (kindOf c.tokens) kind cs) : Binds c kind cs := by
  have hoptional (hne : kind ≠ .matchArm) (h : ∃ front sign behind, cs = front ++ (sign ++ behind) ∧
      sign.length ≤ 1 ∧ ∀ t ∈ front ++ behind, ¬ t.IsOneOf (kindOf c.tokens) bindings) :
      Binds c kind cs := by
    obtain ⟨front, sign, behind, rfl, hlen, hnone⟩ := h
    match sign, hlen with
    | [], _ => exact .inl hnone
    | [x], _ =>
      by_cases hx : x.IsOneOf (kindOf c.tokens) bindings
      · exact .inr ⟨front, x, behind, rfl, hnone, hx, fun h => absurd h hne⟩
      · obtain ⟨hfront, hbehind⟩ := forall_mem_append.mp hnone
        exact .inl (forall_mem_append.mpr ⟨hfront, forall_mem_cons.mpr ⟨hx, hbehind⟩⟩)
  cases kind
  case assignExpr | arrayElement | constElement | propertyElement =>
    exact hoptional NodeKind.noConfusion hwhole
  case matchArm =>
    obtain ⟨front, sign, behind, rfl, hsign, hnone⟩ := hwhole
    exact .inr ⟨front, sign, behind, rfl, hnone, ⟨_, by decide, hsign⟩, fun _ => hsign⟩
  all_goals cases hkind

section SignNodes

variable {w : Nat} {cs : List Tree}

/-- `visitNode` of a node with a sign renders the member that waits for it. -/
theorem leads_signNode (hv : Settles m strict c n visit) (hkind : holdsSign kind = true)
    (hcs : Rows (Sited c strict L flat) n cs) (hwhole : Tree.Whole (kindOf c.tokens) kind cs)
    (hsigned : Signed c (.node kind w cs)) (parent : NodeKind) :
    Leads c m (· = .waiting ⟨kind, Tree.first? (.node kind w cs)⟩) (· = .done)
      (visitNode visit parent kind (.node kind w cs)) := by
  rw [visitNode_eq_marked hkind]
  rcases binds_of_whole hkind hwhole with hnone | ⟨front, sign, behind, rfl, hnone, hsign, harm⟩
  · obtain ⟨u, hu, hbinding⟩ := hsigned
    exact absurd hbinding (hnone u hu)
  · have hparts : ∀ u ∈ front ++ behind,
        Relates c (Carries m strict L flat) (signPart visit kind (some m) u) := by
      intro u hu
      have hmem : u ∈ front ++ sign :: behind := by
        rcases mem_append.mp hu with h | h
        · exact mem_append_left _ h
        · exact mem_append_right _ (mem_cons_of_mem _ h)
      exact carries_of_lays (lays_signPart hv (hcs.mem hmem) (.inr (hnone u hu)))
    refine leads_marked (t := .node kind w _) rfl rfl hparts ?_
    unfold signPart
    split
    · next harmKind => exact leads_armPart (harm (beq_iff_eq.mp harmKind))
    · exact leads_alignedPart hsign _

/-- `visitNode` of a node with a sign turns no phase but that of the member that waits for it. -/
theorem carries_signNode (hv : Settles m strict c n visit) (hkind : holdsSign kind = true)
    (hcs : Rows (Sited c strict L flat) n cs) (hnode : Sited c strict L flat kind cs)
    (parent : NodeKind) :
    Relates c (Carries m strict L flat) (visitNode visit parent kind (.node kind w cs)) := by
  rw [visitNode_eq_marked hkind]
  refine carries_marked (t := .node kind w cs) rfl ?_ (fun member hne u hu => ?_) ?_
  · rw [Tree.leaves_node]
    exact hnode.among
  · exact carries_of_lays (lays_signPart hv (hcs.mem hu) (.inl hne))
  · rcases binds_of_whole hkind hnode.whole with hnone | ⟨front, sign, behind, heq, -, hsign, -⟩
    · have hparts : ∀ u ∈ cs, Relates c (Carries m strict L flat) (signPart visit kind (some m) u) :=
        fun u hu => carries_of_lays (lays_signPart hv (hcs.mem hu) (.inr (hnone u hu)))
      exact leads_unmarked rfl hparts
    · have hsigned : Signed c (.node kind w cs) :=
        ⟨sign, heq ▸ mem_append_right _ mem_cons_self, hsign⟩
      have hdone := leads_signNode (w := w) hv hkind hcs hnode.whole hsigned parent
      rw [visitNode_eq_marked hkind] at hdone
      exact hdone.imp (fun _ h => h) fun φ h => h ▸ Phase.noConfusion

end SignNodes

/-! ## Arrays and choices by value -/

/-- `awaitMember` adds a member, and its node is visited next. -/
theorem carries_awaitVisit {width : Option Nat} {k : NodeKind} {s₁ s₂ : State}
    (hv : Settles m strict c n visit) (ht : Rows (Sited c strict L False) n [t]) (hflat : ¬ flat)
    (hk : t.kind? = some k) (hsign : holdsSign k = true) (hsigned : Signed c t)
    (hawait : Runs c (awaitMember group width t) s () s₁) (hvisit : Runs c (visit kind t) s₁ () s₂) :
    Carries m strict L flat s s₂ := by
  have htree : Carries m strict L flat s₁ s₂ :=
    (hv.tree kind ht s₁ () s₂ hvisit).mono (List.Subset.refl L) hflat
  refine carries_await hk hflat hawait htree fun _ hin => ?_
  obtain ⟨-, φ, hφ, hin'⟩ := hv.member kind ht hk hsign hsigned s₁ () s₂ hvisit _ rfl hin
  exact ⟨φ, .inl hφ, hin'⟩

/-- `joinGroup` takes only an element with a key into the group of its array. -/
theorem ends_joinGroup : Ends c (joinGroup group t) s fun _ s₁ =>
    s₁ = s ∨ ∃ width, t.kind? = some .arrayElement ∧ Signed c t ∧
      Runs c (awaitMember group width t) s () s₁ := by
  refine .look_bind looks_findLeaf? fun found hfound => ?_
  split
  · next hjoins =>
    obtain ⟨hkind, hsome⟩ := Bool.and_eq_true_iff.mp hjoins
    have hsigned : Signed c t := signed_of_findLeaf? (by decide) hfound hsome
    have hawait (width : Option Nat) : Ends c (awaitMember group width t) s fun _ s₁ =>
        s₁ = s ∨ ∃ width, t.kind? = some .arrayElement ∧ Signed c t ∧
          Runs c (awaitMember group width t) s () s₁ :=
      fun _ s₁ hrun => .inr ⟨width, beq_iff_eq.mp hkind, hsigned, hrun⟩
    cases t.children.head? with
    | some key => exact .look_bind looks_textOf fun _ _ => .bind (.pure (hawait _))
    | none => exact .bind (.pure (hawait _))
  · exact .pure (.inl rfl)

theorem carries_joinGroup (hv : Settles m strict c n visit)
    (ht : Rows (Sited c strict L False) n [t]) (hflat : ¬ flat) :
    Relates c (Carries m strict L flat) (do joinGroup group t; visit kind t) := by
  intro s a s' hrun
  obtain ⟨⟨⟩, s₁, hjoin, hvisit⟩ := hrun.of_bind
  rcases ends_joinGroup () s₁ hjoin with rfl | ⟨width, hk, hsigned, hawait⟩
  · exact (hv.tree kind ht s₁ a s' hvisit).mono (List.Subset.refl L) hflat
  · exact carries_awaitVisit hv ht hflat hk rfl hsigned hawait hvisit

/-- An arm is whole, so that it is `Signed`. -/
theorem carries_arm (hv : Settles m strict c n visit) (ht : Rows (Sited c strict L False) n [t])
    (hflat : ¬ flat) (hkind : t.isKind .matchArm = true) :
    Relates c (Carries m strict L flat) (do
      awaitMember group (← armWidth? t) t
      visit kind t) := by
  intro s a s' hrun
  obtain ⟨width, s₀, hwidth, hrest⟩ := hrun.of_bind
  obtain ⟨⟨⟩, s₁, hawait, hvisit⟩ := hrest.of_bind
  obtain rfl := looks_armWidth? s _ s₀ hwidth
  obtain ⟨w, cs, rfl⟩ := eq_node_of_kind? (beq_iff_eq.mp hkind)
  obtain ⟨front, sign, behind, heq, hsign, -⟩ := ht.children.2.2.whole
  have hsigned : Signed c (.node .matchArm w cs) :=
    ⟨sign, heq ▸ mem_append_right _ mem_cons_self, _, by decide, hsign⟩
  exact carries_awaitVisit hv ht hflat rfl rfl hsigned hawait hvisit

/-! ## The node of a statement -/

/-- A member waits for its node, or is lost. -/
def Awaits (strict : Prop) (target : Target) (φ : Phase) : Prop :=
  φ = .waiting target ∨ φ = .lost ∧ ¬ strict

/-- A tree with other leaves than the node that is awaited. -/
structure Elsewhere (c : Context) (strict : Prop) (n : Nat) (target : Target) (u : Tree) : Prop where
  row : Rows (Sited c strict u.leaves strict) n [u]
  other : ∃ i, target.first = some i ∧ i ∉ u.leaves

section Items

variable {α : Type} {step : Emit α} {target : Target} {u : Tree} {front behind : List Tree}
  {is : List Nat} {left : α → List Nat}

/-- `Elsewhere` nothing but another member happens to a member that waits. -/
theorem leads_elsewhere (hu : Elsewhere c strict n target u)
    (hstep : Laying c (Carries m strict u.leaves strict) is left [] [] step) :
    Leads c m (Awaits strict target) (Awaits strict target) step := by
  refine .of_carries (carries_of_lays hstep) fun loses φ φ' hφ hturn => ?_
  rcases hφ with rfl | ⟨rfl, hnot⟩
  · cases hturn with
    | stay => exact .inl rfl
    | replaced hnot => exact .inr ⟨rfl, hnot⟩
    | taken h _ =>
      obtain ⟨i, hi, hmem⟩ := hu.other
      exact absurd (h i hi) hmem
  · cases hturn
    exact .inr ⟨rfl, hnot⟩

theorem leads_settled (hstep : Laying c (Carries m strict L flat) is left [] [] step) :
    Leads c m (Settled strict) (Settled strict) step := by
  refine .of_settled (carries_of_lays hstep) fun φ hφ => ?_
  rcases hφ with rfl | ⟨rfl, -⟩ <;> exact ⟨Phase.noConfusion, fun _ => Phase.noConfusion⟩

/-- The node that is awaited renders the member, unless that is lost (`Leads`). -/
theorem leads_awaited (hmember : Leads c m (· = .waiting target) (· = .done) step)
    (htree : Relates c (Carries m strict L flat) step) :
    Leads c m (Awaits strict target) (Settled strict) step := by
  intro s a s' hrun φ hφ hin
  rcases hφ with rfl | ⟨rfl, hnot⟩
  · obtain ⟨hgrows, φ', hφ', hin'⟩ := hmember s a s' hrun _ rfl hin
    exact ⟨hgrows, φ', .inl hφ', hin'⟩
  · obtain ⟨hgrows, φ', hin', hturn⟩ := htree s a s' hrun _ hin
    cases hturn
    exact ⟨hgrows, _, .inr ⟨rfl, hnot⟩, hin'⟩

/-- `walk` through a statement comes across the node of its member. -/
theorem leads_walk (hv : Settles m strict c n visit) (hfront : ∀ u ∈ front, Elsewhere c strict n target u)
    (hbehind : Rows (Sited c strict L False) n behind) (hwalk : walkChild visit kind t = visit kind t)
    (ht : Leads c m (Awaits strict target) (Settled strict) (visit kind t)) :
    Leads c m (Awaits strict target) (Settled strict) (walk visit kind (front ++ t :: behind)) := by
  refine .forM_split (fun u hu => ?_) (hwalk ▸ ht) fun u hu => ?_
  · exact leads_elsewhere (hfront u hu) (lays_walkChild hv.keeps (hfront u hu).row)
  · exact leads_settled (lays_walkChild hv.keeps (hbehind.mem hu))

variable {k : NodeKind} {w : Nat} {cs : List Tree}

/-- `typedParts` of a declaration comes across the node of its member. -/
theorem leads_typedParts {own : Nat → Emit Bool} {member : Bool} (hv : Settles m strict c n visit)
    (hfront : ∀ u ∈ front, Elsewhere c strict n target u)
    (hbehind : Rows (Sited c strict L False) n behind)
    (hown : ∀ {R : State → State → Prop} i, LaysIf c R [i] [] (own i)) (hk : k ≠ .attributeGroup)
    (ht : Leads c m (Awaits strict target) (Settled strict) (visit kind (.node k w cs)))
    (toName : Nat) : Leads c m (Awaits strict target) (Settled strict)
      (typedParts visit kind member own toName (front ++ .node k w cs :: behind)) := by
  induction front generalizing toName with
  | nil =>
    have hrest : Leads c m (Settled strict) (Settled strict)
        (typedParts visit kind member own (toName - 1) behind) :=
      leads_settled (lays_typedParts hv.keeps hbehind hown _ _)
    have hlays : Lays c (Carries m strict L False) [] [] [] (role .afterType) := lays_role rfl
    have hrole := leads_settled hlays
    rw [nil_append, typedParts]
    -- the node is neither an attribute nor a sign of the declaration
    have hdecl (s : State) :
        Runs c (declarationFront visit kind member (.node k w cs) behind) s false s := by
      unfold declarationFront
      dsimp only
      rw [if_neg (by simpa using hk)]
      rfl
    refine .known hdecl ?_
    dsimp only [Tree.leafIndex?]
    rw [if_pos (by rfl)]
    refine .known (a := false) (fun _ => rfl) ?_
    rw [if_pos (by rfl)]
    refine .ite ?_ (.bind ht fun _ => hrest)
    exact .bind ht fun _ => .ite (.bind hrole fun _ => hrest) hrest
  | cons u front ih =>
    obtain ⟨hu, hfront⟩ := forall_mem_cons.mp hfront
    have hrest := ih hfront (toName - 1)
    have hstep {β : Type} {step : Emit β} {is : List Nat} {left : β → List Nat}
        (h : Laying c (Carries m strict u.leaves strict) is left [] [] step) :
        Leads c m (Awaits strict target) (Awaits strict target) step := leads_elsewhere hu h
    rw [cons_append, typedParts]
    dsimp only
    refine .bind (hstep (lays_declarationFront hv.keeps hu.row _ _)) fun done => .ite ?_ hrest
    have hother : Leads c m (Awaits strict target) (Settled strict) (do
        if toName > 0 then
          typePart visit kind u
          if toName == 1 then role .afterType
        else visit kind u
        typedParts visit kind member own (toName - 1) (front ++ .node k w cs :: behind)) := by
      refine .ite ?_ (.bind (hstep (hv.keeps.lays hu.row)) fun _ => hrest)
      refine .bind (hstep (lays_typePart hv.keeps hu.row)) fun _ => .ite ?_ hrest
      exact .bind (hstep (show Lays c _ [] [] [] (role .afterType) from lays_role rfl)) fun _ => hrest
    split
    · exact .bind (hstep (hown _)) fun done => .ite hother hrest
    · exact .bind .pure fun done => .ite hother hrest

/-- In front of the node of a statement all trees are `Elsewhere`. -/
theorem elsewhere_of_sited (hnode : Sited c strict L flat kind (front ++ t :: behind))
    (hcs : Rows (Sited c strict L False) n (front ++ t :: behind)) (hsigned : Signed c t)
    (hquiet : strict → ∀ u ∈ front, u.Every fun k _ => makesGroups k = false) :
    ∀ u ∈ front, Elsewhere c strict n ⟨k, t.first?⟩ u := by
  intro u hu
  refine ⟨(hcs.mem (mem_append_left _ hu)).restrict fun h => hquiet h u hu, ?_⟩
  obtain ⟨sign, hsign, hbinding⟩ := hsigned
  obtain ⟨i, hi⟩ : ∃ i, t.first? = some i := by
    obtain ⟨j, w, rfl, -⟩ := eq_leaf_of_isOneOf hbinding
    cases t with
    | leaf => cases hsign
    | node k' w' cs =>
      have hmem : j ∈ Tree.leaves (.node k' w' cs) := by
        rw [Tree.leaves_node]
        exact (Tree.leaves_sublist_of_mem hsign).subset (by simp)
      rw [Tree.first?_eq_head?]
      exact Option.isSome_iff_exists.mp (isSome_head?.mpr (ne_nil_of_mem hmem))
  refine ⟨i, hi, fun hmem => ?_⟩
  have hnodup := hnode.nodup
  rw [Tree.leavesAll_append, Tree.leavesAll_cons] at hnodup
  exact (nodup_append.mp hnodup).2.2 i ((Tree.leaves_sublist_of_mem hu).subset hmem) i
    (mem_append_left _ (mem_leaves_of_first? hi)) rfl

/-- `visit` of a statement renders the member that waits for its node, unless it loses it. -/
theorem leads_item {key : AlignKey} {place : Tree} (hv : Settles m strict c n visit)
    (hcs : Rows (Sited c strict L False) n cs) (hnode : Sited c strict L False kind cs)
    (htarget : alignTarget? (.node kind w cs) = some (key, place)) (hk : place.kind? = some k)
    (hsigned : Signed c place) (parent : NodeKind) :
    Leads c m (· = .waiting ⟨k, place.first?⟩) (Settled strict)
      (visitNode visit parent kind (.node kind w cs)) := by
  obtain ⟨kind', w', front, behind, k', heq, hk', hcases⟩ := alignTarget?_eq_some htarget
  cases heq
  obtain rfl : k = k' := Option.some.inj (hk.symm.trans hk')
  have hquiet : strict → ∀ u ∈ front, u.Every fun k _ => makesGroups k = false := by
    intro h u hu
    rcases hcases with ⟨-, -, hleaf⟩ | ⟨helement, hnone⟩
    · cases u with
      | leaf => exact trivial
      | node => cases hleaf _ hu
    · have hor := hnode.plain h k helement u (mem_append_left _ hu)
      exact hor.resolve_left (by simp [hnone u hu])
  have hfront := elsewhere_of_sited (k := k) hnode hcs hsigned hquiet
  have hplace : Rows (Sited c strict L False) n [place] := hcs.mem (by simp)
  have hbehind : Rows (Sited c strict L False) n behind := hcs.subset (by simp)
  obtain ⟨v, us, rfl⟩ := eq_node_of_kind? hk
  have hvisit (hsign : holdsSign k = true) (kind : NodeKind) :
      Leads c m (Awaits strict ⟨k, Tree.first? (.node k v us)⟩) (Settled strict)
        (visit kind (.node k v us)) :=
    leads_awaited (hv.member kind hplace rfl hsign hsigned) (hv.tree kind hplace)
  suffices Leads c m (Awaits strict ⟨k, Tree.first? (.node k v us)⟩) (Settled strict)
      (visitNode visit parent kind (.node kind w (front ++ .node k v us :: behind))) from
    this.imp (fun _ h => .inl h) fun _ h => h
  rcases hcases with ⟨rfl, rfl, -⟩ | ⟨helement, -⟩
  · exact leads_walk hv hfront hbehind rfl (hvisit rfl _)
  · cases kind
    case constStmt =>
      cases helement
      exact leads_walk hv hfront hbehind rfl (hvisit rfl _)
    case propertyDecl | classConstDecl =>
      cases helement
      exact leads_typedParts hv hfront hbehind lays_fieldSign NodeKind.noConfusion (hvisit rfl _) _
    all_goals cases helement

end Items

/-! ## Trees -/

/-- `visitTree` settles members, whatever tree is visited. -/
theorem settles_visitTree (n : Nat) : Settles m strict c n (visitTree n) := by
  induction n with
  | zero =>
    refine ⟨fun kind t ht => ?_, ((admits_true c).keeps_visitTree _).takes, fun kind t k ht hk => ?_,
      fun kind t key target k ht h => ?_⟩
    · cases t with
      | leaf i w => exact carries_of_lays lays_leaf
      | node k w cs => exact absurd ht.children.2.1 (Nat.lt_irrefl 0)
    · obtain ⟨w, cs, rfl⟩ := eq_node_of_kind? hk
      exact absurd ht.children.2.1 (Nat.lt_irrefl 0)
    · obtain ⟨_, w, front, behind, _, rfl, -⟩ := alignTarget?_eq_some h
      exact absurd ht.children.2.1 (Nat.lt_irrefl 0)
  | succ n ih =>
    refine ⟨fun kind t ht => ?_, ((admits_true c).keeps_visitTree _).takes,
      fun kind t k ht hk hsign hsigned => ?_, fun kind t key target k ht h hk hsigned => ?_⟩
    · cases t with
      | leaf i w => exact carries_of_lays lays_leaf
      | node k w cs =>
        obtain ⟨hcs, -, hnode⟩ := ht.children
        rw [Nat.add_sub_cancel] at hcs
        show Relates c _ (visitNode (visitTree n) kind k (.node k w cs))
        by_cases hk : aligns k = false
        · exact carries_of_lays (lays_visitNode ih.keeps ht hk kind)
        · cases k
          case assignExpr | arrayElement | constElement | propertyElement | matchArm =>
            exact carries_signNode ih rfl hcs hnode kind
          case matchExpr =>
            refine carries_of_lays (lays_matchExpr (t := .node _ w cs) ih.keeps hcs hnode.whole
              carries_newGroup fun g u hu => ?_)
            exact carries_arm ih ((hcs.mem hu).relax (List.Subset.refl _)) fun h => nomatch hnode.quiet h
          case arrayLiteral | listExpr =>
            refine carries_of_lays (lays_arrayLiteral (t := .node _ w cs) ih.keeps hcs hnode.whole
              carries_newGroup fun g u hu => ?_)
            exact carries_joinGroup ih ((hcs.mem hu).relax (List.Subset.refl _))
              fun h => nomatch hnode.quiet h
          all_goals exact absurd rfl hk
    · obtain ⟨w, cs, rfl⟩ := eq_node_of_kind? hk
      obtain ⟨hcs, -, hnode⟩ := ht.children
      rw [Nat.add_sub_cancel] at hcs
      exact leads_signNode ih hsign hcs hnode.whole hsigned kind
    · obtain ⟨kind', w, front, behind, _, rfl, -⟩ := alignTarget?_eq_some h
      obtain ⟨hcs, -, hnode⟩ := ht.children
      rw [Nat.add_sub_cancel] at hcs
      exact leads_item ih hcs hnode h hk hsigned kind

/-- After a whole `program` a member has both its marks, was lost, or was never added. -/
theorem marks_program {w : Nat} (hrun : Runs c (program (.node .program w cs)) {} () s)
    (hsited : (Tree.node .program w cs).Every (Sited c strict L False)) :
    m.member < s.groups.memberCount m.group ∧
        s.kinds.filter (·.isMarkOf m) = [.alignStart m, .align m] ∨
      s.kinds.filter (·.isMarkOf m) = [] ∧
        (m.member < s.groups.memberCount m.group → MayLose m strict s) := by
  have hstart : In m {} .new :=
    ⟨forall_mem_nil _, ⟨fun h => absurd h (Nat.not_lt_zero _), fun h => absurd rfl h⟩,
      fun _ => ⟨nofun, nofun⟩, rfl⟩
  have hpath : @Path c.style (Carries m strict L False) [] {} [] s :=
    (path_program (settles_visitTree _).keeps hsited hrun).1
  obtain ⟨-, φ, hin, hturn⟩ := carries_of_path hpath .new hstart
  -- marks in the queue would come before a leaf, and no leaf is left
  have hqueue : (s.pending.map Pending.kind).filter (·.isMarkOf m) = [] := by
    refine filter_eq_nil_iff.mpr (forall_mem_map.mpr fun p hp hmark => ?_)
    have hlead := hin.sound p hp (ItemKind.isAlign_of_isMarkOf hmark)
    rw [hrun.lead_of_program p hp] at hlead
    cases hlead
  have hmarks := hin.marks
  rw [State.marks, filter_append, hqueue, append_nil] at hmarks
  rw [hmarks]
  cases hturn with
  | stay => exact .inr ⟨rfl, fun hm => absurd rfl (hin.known.mp hm)⟩
  | rendered => exact .inl ⟨hin.known.mpr Phase.noConfusion, rfl⟩
  | forgotten hloses => exact .inr ⟨rfl, fun _ => hloses⟩

end Annotate

/-- The marks of a member, in the order of the stream. -/
def ItemStream.marksOf (s : ItemStream) (m : MemberRef) : List ItemKind :=
  s.kinds.filter (·.isMarkOf m)

/-- In the stream of a source without syntax problems a member has both its marks or none.  One that
there is has none only if it was lost. -/
theorem annotate_marksOf {source : String} {parsed : Parsed} (h : ofSource source = .ok parsed)
    (herrors : parsed.errors = []) (style : Style) :
    ∃ stream, annotate source parsed style = .ok stream ∧
      ∀ m : MemberRef,
        m.member < stream.groups.memberCount m.group ∧
            stream.marksOf m = [.alignStart m, .align m] ∨
          stream.marksOf m = [] ∧ (m.member < stream.groups.memberCount m.group →
            stream.groups.kindOf? m.group = some .assignment ∧
              ¬ parsed.tree.Every Annotate.PlainDeclaration) := by
  obtain ⟨xs, hlexes, rfl⟩ := Parsed.ofSource_eq_ok_iff.mp h
  obtain ⟨stream, hstream, -⟩ := annotate_spec style hlexes
  refine ⟨stream, hstream, fun m => ?_⟩
  obtain ⟨w, cs, s, hroot, hrun, rfl⟩ := runs_of_annotate hstream
  have hnodup : (Parsed.ofTokens (placed xs)).tree.leaves.Nodup :=
    (Parsed.ofTokens_spec xs).1.imp fun h => Nat.ne_of_lt h
  have hsited := Annotate.every_sited (c := ⟨source, placed xs, style⟩)
    (Parsed.whole_of_errors herrors) hnodup id
  generalize Tree.Every Annotate.PlainDeclaration _ = strict at hsited ⊢
  rw [hroot] at hsited
  refine (Annotate.marks_program hrun hsited).imp_right fun ⟨hmarks, hlost⟩ => ⟨hmarks, fun hm => ?_⟩
  exact (hlost hm).symm

/-- In the stream of a source without syntax problems every member of an alignment group has one mark
where its text starts and one before its operator, in this order, and no other.  Only a member of a
group of statements may have none, and then some declaration of the source makes groups outside its
names, as an attribute before the name may do. -/
theorem annotate_members {source : String} {parsed : Parsed} (h : Parsed.ofSource source = .ok parsed)
    (herrors : parsed.errors = []) (style : Style) :
    ∃ stream, annotate source parsed style = .ok stream ∧
      ∀ m : MemberRef, m.member < stream.groups.memberCount m.group →
        stream.marksOf m = [.alignStart m, .align m] ∨
        stream.marksOf m = [] ∧ stream.groups.kindOf? m.group = some .assignment ∧
          ¬ parsed.tree.Every Annotate.PlainDeclaration := by
  obtain ⟨stream, hstream, hmarks⟩ := annotate_marksOf h herrors style
  refine ⟨stream, hstream, fun m hm => ?_⟩
  rcases hmarks m with ⟨-, hboth⟩ | ⟨hnone, hlost⟩
  · exact .inl hboth
  · exact .inr ⟨hnone, hlost hm⟩

/-- An assignment and the array that it assigns, with two members. -/
theorem annotate_members_array : ∃ parsed stream,
    Parsed.ofSource "<?php\n$a = ['x' => 1,\n'yy' => 2];" = .ok parsed ∧ parsed.errors = [] ∧
      annotate "<?php\n$a = ['x' => 1,\n'yy' => 2];" parsed {} = .ok stream ∧
      0 < stream.groups.memberCount 0 ∧ 1 < stream.groups.memberCount 1 ∧
      ∀ m : MemberRef, m.member < stream.groups.memberCount m.group →
        stream.marksOf m = [.alignStart m, .align m] ∨
        stream.marksOf m = [] ∧ stream.groups.kindOf? m.group = some .assignment ∧
          ¬ parsed.tree.Every Annotate.PlainDeclaration := by
  have hparsed : (Parsed.ofSource "<?php\n$a = ['x' => 1,\n'yy' => 2];").toOption.any (fun p =>
      p.errors.isEmpty && (annotate "<?php\n$a = ['x' => 1,\n'yy' => 2];" p {}).toOption.any fun s =>
        0 < s.groups.memberCount 0 && 1 < s.groups.memberCount 1) = true := by decide +kernel
  obtain ⟨parsed, h, hparsed⟩ := exists_ok_of_any hparsed
  obtain ⟨herrors, hcounts⟩ := Bool.and_eq_true_iff.mp hparsed
  have herrors : parsed.errors = [] := List.isEmpty_iff.mp herrors
  obtain ⟨stream, hstream, hmarks⟩ := annotate_members h herrors {}
  rw [hstream] at hcounts
  have hcounts := Bool.and_eq_true_iff.mp hcounts
  exact ⟨parsed, stream, h, herrors, hstream, of_decide_eq_true hcounts.1,
    of_decide_eq_true hcounts.2, hmarks⟩

/-- An attribute with an array over two lines before a property: while the property waits for its
name, the elements of the array take its place, and it gets no marks. -/
theorem annotate_loses_property : ∃ parsed stream,
    Parsed.ofSource "<?php\nclass A \x7b\n#[B(['x' => 1,\n'y' => 2])]\npublic $a = 1;\n\x7d" =
        .ok parsed ∧ parsed.errors = [] ∧
      annotate "<?php\nclass A \x7b\n#[B(['x' => 1,\n'y' => 2])]\npublic $a = 1;\n\x7d" parsed {} =
        .ok stream ∧
      0 < stream.groups.memberCount 0 ∧ stream.marksOf ⟨0, 0⟩ = [] := by
  have hparsed : (Parsed.ofSource
      "<?php\nclass A \x7b\n#[B(['x' => 1,\n'y' => 2])]\npublic $a = 1;\n\x7d").toOption.any (fun p =>
        p.errors.isEmpty && (annotate
          "<?php\nclass A \x7b\n#[B(['x' => 1,\n'y' => 2])]\npublic $a = 1;\n\x7d" p {}).toOption.any
        fun s => 0 < s.groups.memberCount 0 && (s.marksOf ⟨0, 0⟩).isEmpty) = true := by decide +kernel
  obtain ⟨parsed, h, hparsed⟩ := exists_ok_of_any hparsed
  obtain ⟨herrors, hstream⟩ := Bool.and_eq_true_iff.mp hparsed
  cases h' : annotate "<?php\nclass A \x7b\n#[B(['x' => 1,\n'y' => 2])]\npublic $a = 1;\n\x7d"
      parsed {} with
  | error e => rw [h'] at hstream; cases hstream
  | ok stream =>
      rw [h'] at hstream
      have hmarks := Bool.and_eq_true_iff.mp hstream
      exact ⟨parsed, stream, h, List.isEmpty_iff.mp herrors, h',
        of_decide_eq_true hmarks.1, List.isEmpty_iff.mp hmarks.2⟩

end CodeLayout
