import CodeLayout.Proofs.Annotate.Phase

/-!
# What brings a member further

`Leads c m Φ Ψ step` says that a step brings the member `m` from the phases `Φ` to the phases `Ψ`.  A
member is added by a step that makes it wait (`carries_await`).  A node with a sign takes the member
that waits for it, and renders it (`leads_marked`); it changes nothing for any other member
(`carries_marked`).
-/

namespace CodeLayout

open List

namespace Annotate

/-- Nodes that add members of alignment groups. -/
def makesGroups : NodeKind → Bool
  | .arrayLiteral | .listExpr | .matchExpr => true
  | kind => listsStatements kind

theorem makesGroups_of_listsStatements {kind : NodeKind} (h : listsStatements kind = true) :
    makesGroups kind = true := by
  cases kind <;> first | rfl | cases h

/-- Nodes that hold a sign to line up. -/
def holdsSign : NodeKind → Bool
  | .assignExpr | .arrayElement | .constElement | .propertyElement | .matchArm => true
  | _ => false

/-- The nodes for the names that a declaration gives a value. -/
def elementKind? : NodeKind → Option NodeKind
  | .propertyDecl => some .propertyElement
  | .classConstDecl | .constStmt => some .constElement
  | _ => none

/-- Nothing in a declaration but its names makes a group. -/
def PlainDeclaration (kind : NodeKind) (cs : List Tree) : Prop :=
  ∀ element, elementKind? kind = some element →
    ∀ t ∈ cs, t.isKind element = true ∨ t.Every fun k _ => makesGroups k = false

/-- A whole node with the leaves of its children among `L`, each of them once. -/
structure Sited (c : Context) (strict : Prop) (L : List Nat) (flat : Prop) (kind : NodeKind)
    (cs : List Tree) : Prop where
  whole : Tree.Whole (Parsed.kindOf c.tokens) kind cs
  nodup : (Tree.leavesAll cs).Nodup
  among : Tree.leavesAll cs ⊆ L
  quiet : flat → makesGroups kind = false
  plain : strict → PlainDeclaration kind cs

section Sited

variable {c : Context} {strict flat : Prop} {L : List Nat} {n : Nat} {t : Tree} {ts : List Tree}

theorem every_sited (hwhole : t.Every (Tree.Whole (Parsed.kindOf c.tokens))) (hnodup : t.leaves.Nodup)
    (hplain : strict → t.Every PlainDeclaration) : t.Every (Sited c strict t.leaves False) := by
  refine Tree.every_of_inherited (I := fun u => u.Every (Tree.Whole (Parsed.kindOf c.tokens)) ∧
    u.leaves.Nodup ∧ u.leaves ⊆ t.leaves ∧ (strict → u.Every PlainDeclaration)) ?_ t
    ⟨hwhole, hnodup, List.Subset.refl _, hplain⟩
  rintro k w cs ⟨hwhole, hnodup, hsub, hplain⟩
  rw [Tree.every_node] at hwhole hplain
  rw [Tree.leaves_node] at hnodup hsub
  refine ⟨⟨hwhole.1, hnodup, hsub, False.elim, fun h => (hplain h).1⟩, fun u hu => ?_⟩
  have hleaves := Tree.leaves_sublist_of_mem hu
  exact ⟨hwhole.2 u hu, hnodup.sublist hleaves, List.Subset.trans hleaves.subset hsub,
    fun h => (hplain h).2 u hu⟩

/-- `Rows` among the leaves of a tree of its own, which may be known to make no groups. -/
theorem Rows.restrict (h : Rows (Sited c strict L False) n [t])
    (hflat : flat → t.Every fun k _ => makesGroups k = false) :
    Rows (Sited c strict t.leaves flat) n [t] := by
  obtain ⟨hheight, hevery⟩ := h t mem_cons_self
  refine forall_mem_singleton.mpr ⟨hheight, ?_⟩
  refine Tree.every_of_inherited (I := fun u => u.Every (Sited c strict L False) ∧
    u.leaves ⊆ t.leaves ∧ (flat → u.Every fun k _ => makesGroups k = false)) ?_ t
    ⟨hevery, List.Subset.refl _, hflat⟩
  rintro k w cs ⟨hsited, hsub, hquiet⟩
  rw [Tree.every_node] at hsited hquiet
  rw [Tree.leaves_node] at hsub
  obtain ⟨hnode, hchildren⟩ := hsited
  refine ⟨⟨hnode.whole, hnode.nodup, hsub, fun h => (hquiet h).1, hnode.plain⟩, fun u hu => ?_⟩
  exact ⟨hchildren u hu, List.Subset.trans (Tree.leaves_sublist_of_mem hu).subset hsub,
    fun h => (hquiet h).2 u hu⟩

/-- `Rows` may be asked less of the leaves and of groups. -/
theorem Rows.relax {L' : List Nat} (h : Rows (Sited c strict L flat) n ts) (hL : L ⊆ L') :
    Rows (Sited c strict L' False) n ts :=
  h.imp fun hnode =>
    ⟨hnode.whole, hnode.nodup, List.Subset.trans hnode.among hL, False.elim, hnode.plain⟩

/-- `first?` is a leaf of the tree. -/
theorem mem_leaves_of_first? {k : Nat} (h : t.first? = some k) : k ∈ t.leaves := by
  rw [Tree.first?_eq_head?] at h
  exact mem_of_mem_head? h

end Sited

/-! ## Phases of a step -/

/-- The step keeps the kinds of groups, and brings the member from some phases to others. -/
def Leads {α : Type} (c : Context) (m : MemberRef) (Φ Ψ : Phase → Prop) (step : Emit α) : Prop :=
  ∀ s a s', Runs c step s a s' → ∀ φ, Φ φ → In m s φ → s.groups.Extends s'.groups ∧
    ∃ φ', Ψ φ' ∧ In m s' φ'

section Leads

variable {α β : Type} {c : Context} {m : MemberRef} {strict flat : Prop} {L : List Nat}
  {Φ Ψ Ω : Phase → Prop} {step step' : Emit α} {f : α → Emit β}

theorem carries_of_lays {is : List Nat} {left : α → List Nat}
    (h : Laying c (Carries m strict L flat) is left [] [] step) :
    Relates c (Carries m strict L flat) step := h.relates fun _ _ => carries_of_path

theorem chains_carries : Chains c (Carries m strict L flat) where
  refl := .refl
  trans := .trans
  push hi s a s' hrun :=
    carries_of_path (show Path _ [] s [] s' from chains_path.push hi s a s' hrun)
  flushLead s a s' hrun :=
    carries_of_path (show Path _ [] s [] s' from chains_path.flushLead s a s' hrun)

namespace Leads

theorem bind (hstep : Leads c m Φ Ψ step) (hf : ∀ a, Leads c m Ψ Ω (f a)) :
    Leads c m Φ Ω (step >>= f) := by
  intro s b s₂ hrun φ hφ hin
  obtain ⟨a, s₁, hrun₁, hrun₂⟩ := hrun.of_bind
  obtain ⟨hgrows₁, φ₁, hφ₁, hin₁⟩ := hstep s a s₁ hrun₁ φ hφ hin
  obtain ⟨hgrows₂, φ₂, hφ₂, hin₂⟩ := hf a s₁ b s₂ hrun₂ φ₁ hφ₁ hin₁
  exact ⟨hgrows₁.trans hgrows₂, φ₂, hφ₂, hin₂⟩

theorem ite {b : Prop} [Decidable b] (hstep : Leads c m Φ Ψ step) (hstep' : Leads c m Φ Ψ step') :
    Leads c m Φ Ψ (if b then step else step') := by
  split
  · exact hstep
  · exact hstep'

variable {a : α} {as : List α}

theorem known (hm : ∀ s, Runs c step s a s) (hf : Leads c m Φ Ψ (f a)) :
    Leads c m Φ Ψ (step >>= f) := by
  intro s b s₂ hrun
  obtain ⟨a', s₁, hrun₁, hrun₂⟩ := hrun.of_bind
  obtain ⟨rfl, rfl⟩ := (hm s).unique hrun₁
  exact hf s₁ b s₂ hrun₂

theorem pure : Leads c m Φ Φ (pure a : Emit α) := by
  intro s b s' hrun φ hφ hin
  cases hrun
  exact ⟨.refl _, φ, hφ, hin⟩

theorem imp {Φ' Ψ' : Phase → Prop} (h : Leads c m Φ Ψ step) (hΦ : ∀ φ, Φ' φ → Φ φ)
    (hΨ : ∀ φ, Ψ φ → Ψ' φ) : Leads c m Φ' Ψ' step := by
  intro s a s' hrun φ hφ hin
  obtain ⟨hgrows, φ', hφ', hin'⟩ := h s a s' hrun φ (hΦ φ hφ) hin
  exact ⟨hgrows, φ', hΨ φ' hφ', hin'⟩

/-- `Leads` for phases that no `Turn` leaves. -/
theorem of_carries (h : Relates c (Carries m strict L flat) step)
    (hΦ : ∀ loses φ φ', Φ φ → Turn L flat loses φ φ' → Φ φ') : Leads c m Φ Φ step := by
  intro s a s' hrun φ hφ hin
  obtain ⟨hgrows, φ', hin', hturn⟩ := h s a s' hrun φ hin
  exact ⟨hgrows, φ', hΦ _ φ φ' hφ hturn, hin'⟩

/-- `Leads` a member that does not wait and is not new to where it is. -/
theorem of_settled (h : Relates c (Carries m strict L flat) step)
    (hΦ : ∀ φ, Φ φ → φ ≠ .new ∧ ∀ target, φ ≠ .waiting target) : Leads c m Φ Φ step := by
  refine .of_carries h fun loses φ φ' hφ hturn => ?_
  obtain ⟨hnew, hwait⟩ := hΦ φ hφ
  cases hturn with
  | stay => exact hφ
  | rendered | forgotten => exact absurd rfl hnew
  | replaced | taken => exact absurd rfl (hwait _)

theorem forM {f : α → Emit Unit} (hf : ∀ a ∈ as, Leads c m Φ Φ (f a)) :
    Leads c m Φ Φ (as.forM f) := by
  induction as with
  | nil => exact .pure
  | cons a as ih =>
    rw [List.forM]
    exact .bind (hf a mem_cons_self) fun _ => ih fun b hb => hf b (mem_cons_of_mem a hb)

/-- One among several `Leads` the member further. -/
theorem forM_split {f : α → Emit Unit} {bs : List α} (has : ∀ b ∈ as, Leads c m Φ Φ (f b))
    (ha : Leads c m Φ Ψ (f a)) (hbs : ∀ b ∈ bs, Leads c m Ψ Ψ (f b)) :
    Leads c m Φ Ψ ((as ++ a :: bs).forM f) := by
  induction as with
  | nil =>
    rw [nil_append, List.forM]
    exact .bind ha fun _ => .forM hbs
  | cons b as ih =>
    obtain ⟨hb, has⟩ := forall_mem_cons.mp has
    rw [cons_append, List.forM]
    exact .bind hb fun _ => ih has

end Leads

end Leads

/-! ## Groups and members -/

section Groups

variable {c : Context} {m : MemberRef} {strict flat : Prop} {L : List Nat} {s s₁ s₂ : State}
  {t : Tree} {k : NodeKind}

theorem carries_newGroup {kind : GroupKind} : Relates c (Carries m strict L flat) (newGroup kind) := by
  intro s g s' hrun
  cases hrun
  refine fun φ h => ⟨AlignTable.extends_newGroup _ _, φ, ⟨h.sound, ?_, h.waits, h.marks⟩, .stay φ⟩
  show m.member < (s.groups.newGroup kind).1.memberCount m.group ↔ _
  rw [AlignTable.memberCount_newGroup]
  exact h.known

variable {group : Nat}

/-- `awaitMember` adds a member that waits for the node, if there is such a group. -/
theorem runs_awaitMember {width : Option Nat} (hk : t.kind? = some k)
    (hrun : Runs c (awaitMember group width t) s () s₁) : s₁ = s ∨
      ∃ groups, s₁ = { s with
          groups := groups
          member := some (⟨k, t.first?⟩, ⟨group, s.groups.memberCount group⟩) } ∧
        s.groups.Extends groups ∧
        groups.memberCount group = s.groups.memberCount group + 1 ∧
        ∀ other, other ≠ group → groups.memberCount other = s.groups.memberCount other := by
  obtain ⟨s', _, hget, hrun⟩ := hrun.of_bind
  cases hget
  dsimp only at hrun
  obtain ⟨⟨⟩, s'', hmodify, hrun⟩ := hrun.of_bind
  cases hmodify
  rw [hk] at hrun
  rcases AlignTable.addMember_cases s.groups group width with hadd | ⟨groups, hadd, hgroups⟩
  · rw [hadd] at hrun
    cases hrun
    exact .inl rfl
  · rw [hadd] at hrun
    cases hrun
    exact .inr ⟨groups, rfl, hgroups⟩

/-- `awaitMember` adds a member, and what follows renders it or loses it; any other member that
waited is replaced. -/
theorem carries_await {width : Option Nat} (hk : t.kind? = some k) (hflat : ¬ flat)
    (hrun : Runs c (awaitMember group width t) s () s₁) (hrest : Carries m strict L flat s₁ s₂)
    (hown : m.group = group → In m s₁ (.waiting ⟨k, t.first?⟩) →
      ∃ φ, (φ = .done ∨ φ = .lost ∧ MayLose m strict s₂) ∧ In m s₂ φ) :
    Carries m strict L flat s s₂ := by
  rcases runs_awaitMember hk hrun with rfl | ⟨groups, rfl, hgrows, hcount, hother⟩
  · exact hrest
  intro φ h
  have hknown : m ≠ ⟨group, s.groups.memberCount group⟩ →
      (m.member < groups.memberCount m.group ↔ m.member < s.groups.memberCount m.group) := by
    intro hne
    by_cases hgroup : m.group = group
    · have hmember : m.member ≠ s.groups.memberCount group := by
        intro hmember
        refine hne ?_
        rw [← hmember, ← hgroup]
      rw [hgroup, hcount]
      omega
    · rw [hother _ hgroup]
  by_cases hm : m = ⟨group, s.groups.memberCount group⟩
  · -- the member is the one that was added
    have hnew : φ = .new := by
      by_contra hne
      have := h.known.mpr hne
      rw [hm] at this
      exact absurd this (Nat.lt_irrefl _)
    have hin : In m { s with
        groups := groups
        member := some (⟨k, t.first?⟩, ⟨group, s.groups.memberCount group⟩) }
        (.waiting ⟨k, t.first?⟩) := by
      subst hm hnew
      refine ⟨h.sound, iff_of_true ?_ Phase.noConfusion, fun target => ?_, h.marks⟩
      · show _ < groups.memberCount group
        rw [hcount]
        exact Nat.lt_succ_self _
      · rw [Option.some.injEq, Prod.mk.injEq, Phase.waiting.injEq]
        exact and_iff_left rfl
    obtain ⟨hgrows', -⟩ := hrest _ hin
    obtain ⟨φ', hφ', hin'⟩ := hown (by rw [hm]) hin
    refine ⟨hgrows.trans hgrows', φ', hin', ?_⟩
    rw [hnew]
    rcases hφ' with rfl | ⟨rfl, hlose⟩
    · exact .rendered
    · exact .forgotten hlose
  · -- another one that waited does so no longer
    have hwaits (φ' : Phase) (hφ' : ∀ target, φ' ≠ .waiting target) (target : Target) :
        some ((⟨k, t.first?⟩ : Target), (⟨group, s.groups.memberCount group⟩ : MemberRef)) =
          some (target, m) ↔ φ' = .waiting target := by
      refine iff_of_false (fun heq => hm ?_) (hφ' target)
      rw [Option.some.injEq, Prod.mk.injEq] at heq
      exact heq.2.symm
    obtain ⟨φ₁, hin, hturn⟩ : ∃ φ₁, In m { s with
        groups := groups
        member := some (⟨k, t.first?⟩, ⟨group, s.groups.memberCount group⟩) } φ₁ ∧
        Turn L flat (MayLose m strict s₂) φ φ₁ := by
      cases φ with
      | waiting target =>
        refine ⟨.lost, ⟨h.sound, ?_, hwaits _ fun _ => Phase.noConfusion, h.marks⟩, .replaced hflat⟩
        exact iff_of_true ((hknown hm).mpr (h.known.mpr Phase.noConfusion)) Phase.noConfusion
      | new | lost | started | done =>
        exact ⟨_, ⟨h.sound, (hknown hm).trans h.known, hwaits _ fun _ => Phase.noConfusion, h.marks⟩,
          .stay _⟩
    obtain ⟨hgrows', φ', hin', hturn'⟩ := hrest φ₁ hin
    exact ⟨hgrows.trans hgrows', φ', hin', hturn.trans hturn'⟩

/-- `takeMember` takes a member that waits for the node, and no other one. -/
theorem runs_takeMember {a : Option MemberRef} (hk : t.kind? = some k)
    (hrun : Runs c (takeMember t) s a s₁) :
    (∃ m, s.member = some (⟨k, t.first?⟩, m) ∧ a = some m ∧ s₁ = { s with member := none }) ∨
      (∀ m, s.member ≠ some (⟨k, t.first?⟩, m)) ∧ a = none ∧ s₁ = s := by
  obtain ⟨s', _, hget, hrun⟩ := hrun.of_bind
  cases hget
  rw [hk] at hrun
  split at hrun
  · next target m kind hmember hkind =>
    cases hkind
    split at hrun
    · next htarget =>
      rw [beq_iff_eq] at htarget
      cases hrun
      exact .inl ⟨m, by rw [hmember, htarget], rfl, rfl⟩
    · next htarget =>
      cases hrun
      refine .inr ⟨fun m' heq => htarget ?_, rfl, rfl⟩
      rw [hmember, Option.some.injEq, Prod.mk.injEq] at heq
      rw [heq.1, beq_self_eq_true]
  · next hnone =>
    cases hrun
    exact .inr ⟨fun m' heq => hnone _ _ _ heq rfl, rfl, rfl⟩

end Groups

/-! ## Nodes with a sign -/

section Signs

variable {c : Context} {m : MemberRef} {strict flat : Prop} {L : List Nat} {s : State} {t : Tree}
  {k : NodeKind} {part : Option MemberRef → Tree → Emit Unit}

/-- `queueMember` of another member changes nothing for this one. -/
theorem carries_queueMember {mark : MemberRef → ItemKind} {member : Option MemberRef}
    (hmark : ∀ m', m' ≠ m → (mark m').isMarkOf m = false) (hne : member ≠ some m) :
    Relates c (Carries m strict L flat) (queueMember mark member) := by
  cases member with
  | none => exact chains_carries.look .pure
  | some m' =>
    have hm' : (mark m').isMarkOf m = false := hmark m' fun h => hne (congrArg some h)
    intro s a s' hrun φ h
    obtain ⟨b, rfl⟩ := hrun.queue
    refine ⟨.refl _, φ, h.of_kinds (k := []) (p := [⟨mark m', false, b⟩]) ?_ rfl rfl rfl
      (forall_mem_nil _) (forall_mem_singleton.mpr hm')
      (forall_mem_singleton.mpr fun _ => rfl), .stay φ⟩
    exact (append_nil _).symm

variable {m' : MemberRef}

theorem isMarkOf_alignStart (h : m' ≠ m) : (ItemKind.alignStart m').isMarkOf m = false := by
  simp [ItemKind.isMarkOf, h]

theorem isMarkOf_align (h : m' ≠ m) : (ItemKind.align m').isMarkOf m = false := by
  simp [ItemKind.isMarkOf, h]

/-- `queueMember` of the member itself brings it further. -/
theorem leads_queueMember {mark : MemberRef → ItemKind} {φ φ' : Phase}
    (hmark : (mark m).isMarkOf m = true) (hφ : φ ≠ .new) (hφ' : φ' ≠ .new)
    (hwaits : ∀ target, φ ≠ .waiting target) (hwaits' : ∀ target, φ' ≠ .waiting target)
    (hmarks : φ'.marks m = φ.marks m ++ [mark m]) :
    Leads c m (· = φ) (· = φ') (queueMember mark (some m)) := by
  rintro s a s' hrun φ rfl h
  obtain ⟨b, rfl⟩ := hrun.queue
  refine ⟨.refl _, φ', rfl, ?_, ?_, fun target => ?_, ?_⟩
  · exact forall_mem_append.mpr ⟨h.sound, forall_mem_singleton.mpr fun _ => rfl⟩
  · exact iff_of_true (h.known.mpr hφ) hφ'
  · exact iff_of_false (fun heq => hwaits target ((h.waits target).mp heq)) (hwaits' target)
  · rw [hmarks, ← h.marks]
    simp [State.marks, State.kinds, filter_append, hmark]

theorem leads_queueStart : Leads c m (· = .lost) (· = .started) (queueMember .alignStart (some m)) :=
  leads_queueMember (by simp [ItemKind.isMarkOf]) Phase.noConfusion Phase.noConfusion
    (fun _ => Phase.noConfusion) (fun _ => Phase.noConfusion) rfl

theorem leads_queueAlign : Leads c m (· = .started) (· = .done) (queueMember .align (some m)) :=
  leads_queueMember (by simp [ItemKind.isMarkOf]) Phase.noConfusion Phase.noConfusion
    (fun _ => Phase.noConfusion) (fun _ => Phase.noConfusion) rfl

/-- The layout of a node with a sign: it takes the member that waits for it, and hands it to the
layout of its parts. -/
def marked (t : Tree) (part : Option MemberRef → Tree → Emit Unit) : Emit Unit := do
  let member ← takeMember t
  if !t.children.isEmpty then queueMember .alignStart member
  t.children.forM (part member)

/-- `takeMember` takes the member that waits for the node. -/
theorem leads_takeMember {rest : Option MemberRef → Emit Unit} {Ψ : Phase → Prop}
    (hk : t.kind? = some k) (hrest : Leads c m (· = .lost) Ψ (rest (some m))) :
    Leads c m (· = .waiting ⟨k, t.first?⟩) Ψ (takeMember t >>= rest) := by
  rintro s b s₂ hrun φ rfl h
  obtain ⟨a, s₁, hrun₁, hrun₂⟩ := hrun.of_bind
  have hmember := (h.waits _).mpr rfl
  rcases runs_takeMember hk hrun₁ with ⟨m', hm', rfl, rfl⟩ | ⟨hnone, -, -⟩
  · obtain rfl : m' = m := by
      rw [hmember, Option.some.injEq, Prod.mk.injEq] at hm'
      exact hm'.2.symm
    refine hrest { s with member := none } b s₂ hrun₂ .lost rfl ⟨h.sound, ?_, fun target => ?_, h.marks⟩
    · exact iff_of_true (h.known.mpr Phase.noConfusion) Phase.noConfusion
    · exact iff_of_false (by simp) Phase.noConfusion
  · exact absurd hmember (hnone m)

/-- `marked` renders the member that waits for the node with a sign. -/
theorem leads_marked {front behind : List Tree} {sign : Tree} (hk : t.kind? = some k)
    (hcs : t.children = front ++ sign :: behind)
    (hparts : ∀ u ∈ front ++ behind, Relates c (Carries m strict L flat) (part (some m) u))
    (hsign : Leads c m (· = .started) (· = .done) (part (some m) sign)) :
    Leads c m (· = .waiting ⟨k, t.first?⟩) (· = .done) (marked t part) := by
  obtain ⟨hfront, hbehind⟩ := forall_mem_append.mp hparts
  have hsettled (φ₀ : Phase) (h₀ : φ₀ ≠ .new ∧ ∀ target, φ₀ ≠ .waiting target) :
      ∀ φ, φ = φ₀ → φ ≠ .new ∧ ∀ target, φ ≠ .waiting target := fun _ h => h ▸ h₀
  refine leads_takeMember hk ?_
  rw [hcs, if_pos (by simp)]
  refine .bind leads_queueStart fun _ => ?_
  exact .forM_split
    (fun u hu => .of_settled (hfront u hu)
      (hsettled .started ⟨Phase.noConfusion, fun _ => Phase.noConfusion⟩)) hsign
    fun u hu => .of_settled (hbehind u hu)
      (hsettled .done ⟨Phase.noConfusion, fun _ => Phase.noConfusion⟩)

/-- `marked` takes the member that waits for a node without a sign all the same. -/
theorem leads_unmarked (hk : t.kind? = some k)
    (hparts : ∀ u ∈ t.children, Relates c (Carries m strict L flat) (part (some m) u)) :
    Leads c m (· = .waiting ⟨k, t.first?⟩) (· ≠ .new) (marked t part) := by
  have hsettled (φ₀ : Phase) (h₀ : φ₀ ≠ .new ∧ ∀ target, φ₀ ≠ .waiting target) :
      Leads c m (· = φ₀) (· ≠ .new) (t.children.forM (part (some m))) := by
    refine Leads.imp (.forM fun u hu => .of_settled (hparts u hu) fun φ h => ?_) (fun _ h => h)
      fun φ h => ?_
    · exact h ▸ h₀
    · exact h ▸ h₀.1
  refine leads_takeMember hk (.ite ?_ (hsettled _ ⟨Phase.noConfusion, fun _ => Phase.noConfusion⟩))
  refine .bind leads_queueStart fun _ => ?_
  exact hsettled .started ⟨Phase.noConfusion, fun _ => Phase.noConfusion⟩

/-- `marked` turns no phase but that of the member that waits for the node. -/
theorem carries_marked (hk : t.kind? = some k) (hL : t.leaves ⊆ L)
    (hparts : ∀ member, member ≠ some m →
      ∀ u ∈ t.children, Relates c (Carries m strict L flat) (part member u))
    (hown : Leads c m (· = .waiting ⟨k, t.first?⟩) (· ≠ .new) (marked t part)) :
    Relates c (Carries m strict L flat) (marked t part) := by
  intro s a s' hrun φ h
  by_cases hwaits : φ = .waiting ⟨k, t.first?⟩
  · obtain ⟨hgrows, φ', hφ', hin⟩ := hown s a s' hrun φ hwaits h
    refine ⟨hgrows, φ', hin, ?_⟩
    rw [hwaits]
    exact .taken (fun i hi => hL (mem_leaves_of_first? hi)) hφ'
  · obtain ⟨member, s₁, hrun₁, hrun₂⟩ := hrun.of_bind
    have hrest : member ≠ some m → Carries m strict L flat s₁ s' := by
      intro hne
      have hall := chains_carries.forM (hparts member hne)
      refine Relates.ite (chains_carries.bind ?_ fun _ => hall) hall s₁ a s' hrun₂
      exact carries_queueMember (fun _ => isMarkOf_alignStart) hne
    rcases runs_takeMember hk hrun₁ with ⟨m', hm', rfl, rfl⟩ | ⟨-, rfl, rfl⟩
    · -- the node takes another member, which does not make this one wait
      have hne : m' ≠ m := fun heq => hwaits ((h.waits _).mp (by rw [hm', heq]))
      refine hrest (fun heq => hne (Option.some.inj heq)) φ ⟨h.sound, h.known, fun target => ?_, h.marks⟩
      refine iff_of_false (by simp) fun hφ => hne ?_
      have := hm'.symm.trans ((h.waits target).mpr hφ)
      rw [Option.some.injEq, Prod.mk.injEq] at this
      exact this.2
    · exact hrest (by simp) φ h

end Signs

end Annotate

end CodeLayout
