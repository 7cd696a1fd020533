import CodeLayout.Proofs.Annotate.Layout

/-!
# The life of a member

A member of an alignment group is added while it waits for its node.  When the node is visited, the
member is taken: a mark is queued where the text of the member starts, and another one before its
operator.  A member whose node does not come before another member waits is lost.

`Phase` says how far a fixed member has come, and `Turn` which phases may follow each other in a visit
of some trees: a member that waits can only be taken where its node is, so nothing but another member
can happen to it elsewhere.  Moves do not change the phase of any member (`In.move`), hence paths turn
phases as their calls do (`carries_of_path`).
-/

namespace CodeLayout

open List

/-- The item is a mark of the member. -/
def ItemKind.isMarkOf (m : MemberRef) (kind : ItemKind) : Bool :=
  kind == .alignStart m || kind == .align m

variable {m : MemberRef} {kind : ItemKind}

theorem ItemKind.isAlign_of_isMarkOf (h : kind.isMarkOf m = true) : kind.isAlign = true := by
  rw [isMarkOf, Bool.or_eq_true, beq_iff_eq, beq_iff_eq] at h
  rcases h with rfl | rfl <;> rfl

theorem ItemKind.isAlign_of_isNeutral (h : kind.isNeutral = true) : kind.isAlign = false := by
  cases kind <;> first | rfl | cases h

theorem ItemKind.isMarkOf_of_isNeutral (h : kind.isNeutral = true) : kind.isMarkOf m = false := by
  cases hmark : kind.isMarkOf m with
  | false => rfl
  | true => exact absurd (isAlign_of_isMarkOf hmark) (by simp [isAlign_of_isNeutral h])

theorem Pair.isMarkOf_opening {style : Style} (p : Pair style) : p.opening.isMarkOf m = false := by
  cases p <;> rfl

theorem Pair.isMarkOf_closing {style : Style} (p : Pair style) : p.closing.isMarkOf m = false := by
  cases p <;> rfl

namespace AlignTable

/-- The kind of a group. -/
def kindOf? (t : AlignTable) (group : Nat) : Option GroupKind :=
  t.groups[group]?.map AlignGroup.kind

/-- Groups are added, and keep their kind. -/
def Extends (t t' : AlignTable) : Prop :=
  ∀ group kind, t.kindOf? group = some kind → t'.kindOf? group = some kind

variable {t t' t'' : AlignTable}

theorem Extends.refl (t : AlignTable) : t.Extends t := fun _ _ h => h

theorem Extends.trans (h : t.Extends t') (h' : t'.Extends t'') : t.Extends t'' :=
  fun group kind hkind => h' group kind (h group kind hkind)

theorem memberCount_newGroup (t : AlignTable) (kind : GroupKind) (group : Nat) :
    (t.newGroup kind).1.memberCount group = t.memberCount group := by
  rw [memberCount, memberCount, newGroup, Array.getElem?_push]
  by_cases hgroup : group = t.groups.size
  · rw [if_pos hgroup, hgroup, Array.getElem?_size]
    rfl
  · rw [if_neg hgroup]

theorem extends_newGroup (t : AlignTable) (kind : GroupKind) : t.Extends (t.newGroup kind).1 := by
  intro group kind' h
  have hlt : group < t.groups.size := by
    rw [kindOf?, Option.map_eq_some_iff] at h
    obtain ⟨g, hg, -⟩ := h
    exact (Array.getElem?_eq_some_iff.mp hg).1
  rw [kindOf?, newGroup, Array.getElem?_push, if_neg hlt.ne]
  exact h

theorem kindOf?_newGroup (t : AlignTable) (kind : GroupKind) :
    (t.newGroup kind).1.kindOf? (t.newGroup kind).2 = some kind := by
  rw [kindOf?, newGroup, Array.getElem?_push, if_pos rfl]
  rfl

/-- `addMember` adds a member to a group that there is, and to no other. -/
theorem addMember_cases (t : AlignTable) (group : Nat) (width : Option Nat) :
    t.addMember group width = (t, none) ∨
    ∃ t', t.addMember group width = (t', some ⟨group, t.memberCount group⟩) ∧ t.Extends t' ∧
      t'.memberCount group = t.memberCount group + 1 ∧
      ∀ other, other ≠ group → t'.memberCount other = t.memberCount other := by
  cases hg : t.groups[group]? with
  | none =>
    refine .inl ?_
    rw [addMember, hg]
  | some g =>
    have hlt := (Array.getElem?_eq_some_iff.mp hg).1
    refine .inr ⟨⟨t.groups.setIfInBounds group { g with members := g.members.push ⟨0, width⟩ }⟩,
      ?_, fun group' kind h => ?_, ?_, fun other hne => ?_⟩
    · rw [addMember, hg, memberCount, hg]
    · rw [kindOf?, Array.getElem?_setIfInBounds]
      split
      · next heq =>
        subst heq
        rw [← h, kindOf?, hg]
        rfl
      · exact h
    · rw [memberCount, memberCount, Array.getElem?_setIfInBounds, if_pos rfl, if_pos hlt, hg]
      exact Array.size_push _
    · rw [memberCount, memberCount, Array.getElem?_setIfInBounds, if_neg (Ne.symm hne)]

end AlignTable

namespace Annotate

/-- How far a member has come. -/
inductive Phase where
  /-- It has not been added yet. -/
  | new
  /-- It waits for its node. -/
  | waiting (target : Target)
  /-- It does not wait any more, and nothing has been emitted for it. -/
  | lost
  /-- Its text has started. -/
  | started
  /-- Its operator has come. -/
  | done

/-- The marks of the member so far. -/
def Phase.marks (m : MemberRef) : Phase → List ItemKind
  | started => [.alignStart m]
  | done => [.alignStart m, .align m]
  | _ => []

/-- The marks of a member, those among the items before those in the queue. -/
def State.marks (m : MemberRef) (s : State) : List ItemKind :=
  (s.kinds ++ s.pending.map Pending.kind).filter (·.isMarkOf m)

/-- The member is in a phase. -/
structure In (m : MemberRef) (s : State) (φ : Phase) : Prop where
  sound : ∀ p ∈ s.pending, p.kind.isAlign = true → p.lead = false
  known : m.member < s.groups.memberCount m.group ↔ φ ≠ .new
  waits : ∀ target, s.member = some (target, m) ↔ φ = .waiting target
  marks : s.marks m = φ.marks m

/-- The phases that may follow each other in a visit of trees with the leaves `L`.  Where the trees
are `flat`, no other member waits meanwhile; `loses` tells whether a new member may be lost. -/
inductive Turn (L : List Nat) (flat loses : Prop) : Phase → Phase → Prop
  | stay (φ : Phase) : Turn L flat loses φ φ
  | rendered : Turn L flat loses .new .done
  | forgotten (h : loses) : Turn L flat loses .new .lost
  | replaced {target : Target} (h : ¬ flat) : Turn L flat loses (.waiting target) .lost
  | taken {target : Target} {φ : Phase} (h : ∀ k, target.first = some k → k ∈ L) (hφ : φ ≠ .new) :
      Turn L flat loses (.waiting target) φ

namespace Turn

variable {L L' : List Nat} {flat flat' loses loses' : Prop} {φ φ' φ'' : Phase}

theorem ne_new (h : Turn L flat loses φ φ') (hφ : φ ≠ .new) : φ' ≠ .new := by
  cases h with
  | stay => exact hφ
  | rendered | forgotten => exact absurd rfl hφ
  | replaced => exact Phase.noConfusion
  | taken _ hφ' => exact hφ'

theorem trans (h : Turn L flat loses φ φ') (h' : Turn L flat loses φ' φ'') :
    Turn L flat loses φ φ'' := by
  cases h with
  | stay => exact h'
  | rendered => cases h'; exact .rendered
  | forgotten hloses => cases h'; exact .forgotten hloses
  | replaced hflat => cases h'; exact .replaced hflat
  | taken hL hφ' => exact .taken hL (h'.ne_new hφ')

theorem mono (h : Turn L flat loses φ φ') (hL : L ⊆ L') (hflat : flat' → flat) (hloses : loses → loses') :
    Turn L' flat' loses' φ φ' := by
  cases h with
  | stay => exact .stay _
  | rendered => exact .rendered
  | forgotten h => exact .forgotten (hloses h)
  | replaced h => exact .replaced fun h' => h (hflat h')
  | taken h hφ => exact .taken (fun k hk => hL (h k hk)) hφ

end Turn

/-! ## Moves -/

section Moves

variable {m : MemberRef} {s s' : State} {φ : Phase} {style : Style} {ps qs : List (Pair style)}

/-- Of the marks that wait, those that are `isMarkOf` a member are all flushed, or none of them is.
-/
theorem filter_isMarkOf {ps : List Pending} {q : Pending → Bool} {b : Bool}
    (h : ∀ p ∈ ps, p.kind.isMarkOf m = true → q p = b) :
    ((ps.filter q).map Pending.kind).filter (·.isMarkOf m) =
      if b then (ps.map Pending.kind).filter (·.isMarkOf m) else [] := by
  induction ps with
  | nil => cases b <;> rfl
  | cons p ps ih =>
    obtain ⟨hp, hps⟩ := forall_mem_cons.mp h
    have hrest := ih hps
    cases hmark : p.kind.isMarkOf m with
    | false =>
      rw [map_cons, filter_cons_of_neg (a := p.kind) (by simp [hmark]), ← hrest,
        filter_cons]
      split
      · rw [map_cons, filter_cons_of_neg (by simp [hmark])]
      · rfl
    | true =>
      rw [filter_cons, hp hmark]
      cases b with
      | true =>
        rw [if_pos rfl, map_cons, map_cons, filter_cons_of_pos hmark,
          filter_cons_of_pos hmark, hrest]
        rfl
      | false => exact hrest

/-- What is flushed keeps its place among the `marks` of a member. -/
theorem In.marks_flush (h : In m s φ) (lead : Bool)
    (hkinds : s'.kinds = s.kinds ++ (s.pending.filter (·.lead == lead)).map Pending.kind)
    (hpending : s'.pending = s.pending.filter (·.lead != lead)) : s'.marks m = s.marks m := by
  have hlead : ∀ p ∈ s.pending, p.kind.isMarkOf m = true → p.lead = false :=
    fun p hp hmark => h.sound p hp (ItemKind.isAlign_of_isMarkOf hmark)
  have hflushed := filter_isMarkOf (m := m) (q := (·.lead == lead)) (b := false == lead)
    fun p hp hmark => by rw [hlead p hp hmark]
  have hkept := filter_isMarkOf (m := m) (q := (·.lead != lead)) (b := false != lead)
    fun p hp hmark => by rw [hlead p hp hmark]
  rw [State.marks, State.marks, hkinds, hpending, append_assoc, filter_append,
    filter_append, hflushed, hkept, filter_append]
  cases lead <;> simp

/-- `In` a phase stays a member with an item or a mark in the queue that is none of its own. -/
theorem In.of_kinds (h : In m s φ) {k : List ItemKind} {p : List Pending}
    (hkinds : s'.kinds = s.kinds ++ k) (hpending : s'.pending = s.pending ++ p)
    (hgroups : s'.groups = s.groups) (hmember : s'.member = s.member)
    (hk : ∀ i ∈ k, i.isMarkOf m = false) (hp : ∀ q ∈ p, q.kind.isMarkOf m = false)
    (hsound : ∀ q ∈ p, q.kind.isAlign = true → q.lead = false) : In m s' φ where
  sound := by
    rw [hpending]
    exact forall_mem_append.mpr ⟨h.sound, hsound⟩
  known := hgroups ▸ h.known
  waits := hmember ▸ h.waits
  marks := by
    have hk' : k.filter (·.isMarkOf m) = [] := filter_eq_nil_iff.mpr fun i hi => by simp [hk i hi]
    have hp' : (p.map Pending.kind).filter (·.isMarkOf m) = [] :=
      filter_eq_nil_iff.mpr (forall_mem_map.mpr fun q hq => by simp [hp q hq])
    rw [← h.marks, State.marks, State.marks, hkinds, hpending, map_append]
    simp only [filter_append, hk', hp', append_nil]

/-- A `Move` changes the phase of no member. -/
theorem In.move (h : In m s φ) (hmove : Move s s' ps qs) (hgroups : s'.groups = s.groups)
    (hmember : s'.member = s.member) : In m s' φ := by
  have hemit {k : ItemKind} (hkinds : s'.kinds = s.kinds ++ [k]) (hpending : s'.pending = s.pending)
      (hk : k.isMarkOf m = false) : In m s' φ :=
    h.of_kinds (p := []) hkinds (by rw [hpending, append_nil]) hgroups hmember
      (forall_mem_singleton.mpr hk) (forall_mem_nil _) (forall_mem_nil _)
  have hqueue {p : Pending} (hkinds : s'.kinds = s.kinds) (hpending : s'.pending = s.pending ++ [p])
      (hp : p.kind.isMarkOf m = false) (hsound : p.kind.isAlign = true → p.lead = false) :
      In m s' φ :=
    h.of_kinds (k := []) (by rw [hkinds, append_nil]) hpending hgroups hmember
      (forall_mem_nil _) (forall_mem_singleton.mpr hp) (forall_mem_singleton.mpr hsound)
  cases hmove with
  | keep hkinds hpending =>
    exact h.of_kinds (k := []) (p := []) (by rw [hkinds, append_nil])
      (by rw [hpending, append_nil]) hgroups hmember (forall_mem_nil _)
      (forall_mem_nil _) (forall_mem_nil _)
  | emit hkind hkinds hpending => exact hemit hkinds hpending (ItemKind.isMarkOf_of_isNeutral hkind)
  | queue hp hkinds hpending =>
    exact hqueue hkinds hpending (ItemKind.isMarkOf_of_isNeutral hp) fun halign => absurd halign (by
      simp [ItemKind.isAlign_of_isNeutral hp])
  | flush lead hkinds hpending =>
    refine ⟨?_, hgroups ▸ h.known, hmember ▸ h.waits, ?_⟩
    · rw [hpending]
      exact fun p hp => h.sound p (mem_of_mem_filter hp)
    · rw [h.marks_flush lead hkinds hpending, h.marks]
  | start p hkinds hpending => exact hemit hkinds hpending p.isMarkOf_opening
  | stop p hkinds hpending => exact hemit hkinds hpending p.isMarkOf_closing
  | stopLater p b hkinds hpending =>
    exact hqueue hkinds hpending p.isMarkOf_closing fun _ => rfl

end Moves

/-! ## Steps -/

/-- A new member may be lost: that happens in groups of statements only, and there only to a member
whose declaration makes groups before its name. -/
def MayLose (m : MemberRef) (strict : Prop) (s : State) : Prop :=
  ¬ strict ∧ s.groups.kindOf? m.group = some .assignment

/-- From a phase on, groups have kept their kind, and the phase has turned as in a visit of trees with
the leaves `L`. -/
def Carried (m : MemberRef) (strict : Prop) (L : List Nat) (flat : Prop) (s : State) (φ : Phase)
    (s' : State) : Prop :=
  s.groups.Extends s'.groups ∧ ∃ φ', In m s' φ' ∧ Turn L flat (MayLose m strict s') φ φ'

/-- The step turns whatever phase the member is in. -/
def Carries (m : MemberRef) (strict : Prop) (L : List Nat) (flat : Prop) (s s' : State) : Prop :=
  ∀ φ, In m s φ → Carried m strict L flat s φ s'

section Carries

variable {m : MemberRef} {strict flat flat' : Prop} {L L' : List Nat} {s s' s'' : State} {φ : Phase}
  {style : Style} {ps qs : List (Pair style)}

theorem MayLose.of_extends (h : MayLose m strict s) (hgrows : s.groups.Extends s'.groups) :
    MayLose m strict s' := ⟨h.1, hgrows _ _ h.2⟩

theorem Carried.refl (h : In m s φ) : Carried m strict L flat s φ s := ⟨.refl _, φ, h, .stay φ⟩

theorem Carried.trans (h : Carried m strict L flat s φ s')
    (h' : s.groups.Extends s'.groups → Carries m strict L flat s' s'') :
    Carried m strict L flat s φ s'' := by
  obtain ⟨hgrows, φ', hφ', hturn⟩ := h
  obtain ⟨hgrows', φ'', hφ'', hturn'⟩ := h' hgrows φ' hφ'
  refine ⟨hgrows.trans hgrows', φ'', hφ'', ?_⟩
  exact (hturn.mono (List.Subset.refl L) id fun h => h.of_extends hgrows').trans hturn'

theorem Carries.refl (s : State) : Carries m strict L flat s s := fun _ h => .refl h

theorem Carries.trans (h : Carries m strict L flat s s') (h' : Carries m strict L flat s' s'') :
    Carries m strict L flat s s'' := fun φ hφ => (h φ hφ).trans fun _ => h'

theorem Carries.mono (h : Carries m strict L flat s s') (hL : L ⊆ L') (hflat : flat' → flat) :
    Carries m strict L' flat' s s' := by
  intro φ hφ
  obtain ⟨hgrows, φ', hφ', hturn⟩ := h φ hφ
  exact ⟨hgrows, φ', hφ', hturn.mono hL hflat id⟩

/-- A `Path` turns the phase as its calls do. -/
theorem carries_of_path (h : Path (Carries m strict L flat) ps s qs s') :
    Carries m strict L flat s s' := by
  induction h with
  | refl => exact .refl _
  | move hmove hgroups hmember =>
    exact fun φ h => ⟨hgroups ▸ .refl _, φ, h.move hmove hgroups hmember, .stay φ⟩
  | call h => exact h
  | swap _ ih => exact ih
  | trans _ _ ih₁ ih₂ => exact ih₁.trans ih₂

/-- A `Path` without calls changes neither the groups nor the phase. -/
theorem in_of_path (h : Path Eq ps s qs s') (hφ : In m s φ) : s'.groups = s.groups ∧ In m s' φ := by
  induction h with
  | refl => exact ⟨rfl, hφ⟩
  | move hmove hgroups hmember => exact ⟨hgroups, hφ.move hmove hgroups hmember⟩
  | call h => exact ⟨h ▸ rfl, h ▸ hφ⟩
  | swap _ ih => exact ih hφ
  | trans _ _ ih₁ ih₂ =>
    obtain ⟨hgroups₁, hφ₁⟩ := ih₁ hφ
    obtain ⟨hgroups₂, hφ₂⟩ := ih₂ hφ₁
    exact ⟨hgroups₂.trans hgroups₁, hφ₂⟩

end Carries

end Annotate

end CodeLayout
