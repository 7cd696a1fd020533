import CodeLayout.Proofs.Annotate.Phase
import CodeLayout.Proofs.Annotate.Signs
import CodeLayout.Proofs.Render.Columns

/-!
# Operators that line up

An `Operator` is the place of an aligned operator in a list of items.  A pass that comes past the
operator takes the measure of its member, and decides the gap before it (`Pass.nonempty_stand`).
-/

namespace CodeLayout

open List

/-! ## Places of operators -/

/-- The place of an operator of an alignment group: the text of its member starts behind one mark,
and the operator comes behind the other one and the role of its gap. -/
structure Operator (items : List Item) where
  member : MemberRef
  kind : OpKind
  before : List Item
  start : Item
  text : List Item
  align : Item
  role : Item
  sign : Item
  behind : List Item
  items_eq : items = before ++ start :: (text ++ align :: role :: sign :: behind)
  kind_start : start.kind = .alignStart member
  kind_align : align.kind = .align member
  kind_role : role.kind = .role (.beforeOp kind)
  kind_sign : sign.kind = .text

namespace Operator

variable {items : List Item} {m : MemberRef}

/-- Where the text of the member starts. -/
def first? (o : Operator items) : Option Item := o.text.find? (·.kind.isText)

/-- Some text stands before the operator, and nothing but the operator decides the gap behind it; a
comma gives way. -/
def Plain (o : Operator items) : Prop :=
  o.first?.isSome = true ∧ ∀ r ∈ gapRoles (o.before ++ o.start :: o.text), r = .afterComma

instance (o : Operator items) : Decidable o.Plain := inferInstanceAs (Decidable (_ ∧ _))

section

variable (o : Operator items)
include o

theorem start_mem : o.start ∈ items :=
  (congrArg (o.start ∈ ·) o.items_eq).mpr (mem_append_right _ mem_cons_self)

theorem isMarkOf_start : o.start.kind.isMarkOf o.member = true := by
  simp [o.kind_start, ItemKind.isMarkOf]

theorem isMarkOf_align : o.align.kind.isMarkOf o.member = true := by
  simp [o.kind_align, ItemKind.isMarkOf]

/-- The operator adds its role to the `gapRoles`. -/
theorem gapRoles_role :
    gapRoles (o.before ++ o.start :: (o.text ++ [o.align, o.role])) =
      gapRoles (o.before ++ o.start :: o.text) ++ [.beforeOp o.kind] := by
  have hassoc : o.before ++ o.start :: (o.text ++ [o.align, o.role]) =
      (o.before ++ o.start :: o.text) ++ [o.align, o.role] := by simp
  rw [hassoc, gapRoles, foldl_append, foldl_cons, foldl_cons, foldl_nil]
  simp only [Item.addRole, o.kind_align, o.kind_role]
  rfl

/-- If the member has no more than two marks, the other items have none of it (`isMarkOf`). -/
theorem others (h : items.countP (·.kind.isMarkOf o.member) ≤ 2) :
    ∀ i ∈ o.before ++ o.text ++ o.sign :: o.behind, i.kind.isMarkOf o.member = false := by
  have hcount := congrArg (List.countP (·.kind.isMarkOf o.member)) o.items_eq
  have hnone :
      (o.before ++ o.text ++ o.sign :: o.behind).countP (·.kind.isMarkOf o.member) = 0 := by
    simp only [countP_append, countP_cons, o.isMarkOf_start, o.isMarkOf_align,
      if_true] at hcount ⊢
    omega
  intro i hi
  simpa using countP_eq_zero.mp hnone i hi

end

/-- A member with both its marks has an `Operator`, if the marks are `Seated`. -/
theorem exists_of_marks (hseated : Seated (items.map Item.kind))
    (hmarks : (items.map Item.kind).filter (·.isMarkOf m) = [.alignStart m, .align m]) :
    ∃ o : Operator items, o.member = m := by
  rw [filter_map] at hmarks
  obtain ⟨start, rest, hitems, hstart, hrest⟩ := map_eq_cons_iff.mp hmarks
  obtain ⟨align, rest', rfl, halign, -⟩ := map_eq_cons_iff.mp hrest
  obtain ⟨before, tail, rfl, -, -, htail⟩ := filter_eq_cons_iff.mp hitems
  obtain ⟨text, behind, rfl, -, -, -⟩ := filter_eq_cons_iff.mp htail
  obtain ⟨kind, kinds, hbehind⟩ :=
    hseated (before.map Item.kind ++ .alignStart m :: text.map Item.kind) m (behind.map Item.kind)
      (by simp [hstart, halign])
  obtain ⟨role, behind, rfl, hrole, hbehind⟩ := map_eq_cons_iff.mp hbehind
  obtain ⟨sign, behind, rfl, hsign, -⟩ := map_eq_cons_iff.mp hbehind
  exact ⟨⟨m, kind, before, start, text, align, role, sign, behind, rfl, hstart, halign, hrole,
    hsign⟩, rfl⟩

/-- The operator of a member whose marks are at the places `i` and `j`. -/
def at? (items : List Item) (member : MemberRef) (kind : OpKind) (i j : Nat) :
    Option (Operator items) :=
  let before := items.take i
  let start := items.getD i default
  let text := (items.take j).drop (i + 1)
  let align := items.getD j default
  let role := items.getD (j + 1) default
  let sign := items.getD (j + 2) default
  let behind := items.drop (j + 3)
  if h : items = before ++ start :: (text ++ align :: role :: sign :: behind) ∧
      start.kind = .alignStart member ∧ align.kind = .align member ∧
      role.kind = .role (.beforeOp kind) ∧ sign.kind = .text then
    some ⟨member, kind, before, start, text, align, role, sign, behind, h.1, h.2.1, h.2.2.1,
      h.2.2.2.1, h.2.2.2.2⟩
  else none

theorem member_of_at? {kind : OpKind} {i j : Nat} {o : Operator items}
    (h : at? items m kind i j = some o) : o.member = m := by
  unfold at? at h
  dsimp only at h
  split at h
  · cases h
    rfl
  · cases h

end Operator

namespace Render

/-! ## The gap before an operator -/

/-- What commas ask for: nothing that an operator would not undo. -/
def GivesWay (v : GapView) (d : Demands) : Prop :=
  d.forced = none ∧ d.blank = none ∧ (d.fixed ≠ none → v.style.wrap.neverKeepLines = true)

variable {d : Demands}

theorem givesWay_commas (v : GapView) {roles : List (Role × Bool)}
    (hroles : ∀ r ∈ roles, r.1 = .afterComma) (hd : GivesWay v d) :
    GivesWay v (roles.foldl (fun d r => d.add (demand v r.2 r.1)) d) := by
  induction roles generalizing d with
  | nil => exact hd
  | cons r roles ih =>
    obtain ⟨hr, hroles⟩ := forall_mem_cons.mp hroles
    refine ih hroles ?_
    obtain ⟨hforced, hblank, hfixed⟩ := hd
    show GivesWay v (d.add (demand v r.2 r.1))
    rw [hr]
    show GivesWay v (d.add (v.keepOr _ _))
    unfold GapView.keepOr
    split
    · next hnever => exact ⟨hforced, hblank, fun _ => hnever⟩
    · exact ⟨hforced, hblank, hfixed⟩

/-- `emptyPair?` finds no pair that a comma starts. -/
theorem emptyPair?_commas (v : GapView) (kind : OpKind) {roles : List Role}
    (hroles : ∀ r ∈ roles, r = .afterComma) : emptyPair? v (roles ++ [.beforeOp kind]) = none := by
  have hnone : (roles ++ [Role.beforeOp kind]).find? (fun r => (closing? r).isSome) = none := by
    refine find?_eq_none.mpr fun r hr => ?_
    rcases mem_append.mp hr with hr | hr
    · rw [hroles r hr]
      exact Bool.false_ne_true
    · rw [mem_singleton.mp hr]
      exact Bool.false_ne_true
  rw [emptyPair?, hnone]
  rfl

/-- `operatorGap` asks for the operator's own space, a line break, or its own space unless lines are
kept. -/
theorem operatorGap_before (v : GapView) (breakable : Bool) (kind : OpKind) :
    operatorGap v breakable kind true = .fixed 0 (spaceIf (v.style.spaceAround kind)) ∨
      (∃ n, operatorGap v breakable kind true = .fixed 1 n) ∨
      v.style.wrap.neverKeepLines ≠ true ∧ ∃ start, operatorGap v breakable kind true =
        .soft (spaceIf (v.style.spaceAround kind)) start := by
  unfold operatorGap GapView.wrap GapView.keepOr
  dsimp only
  repeat' split
  all_goals simp_all

/-- What an operator asks for prevails over what `GivesWay`. -/
theorem GivesWay.settle_operator {v : GapView} (hd : GivesWay v d) (breakable : Bool)
    (kind : OpKind) :
    (d.add (operatorGap v breakable kind true)).blank = none ∧
      ((d.add (operatorGap v breakable kind true)).settle v =
          .inline (spaceIf (v.style.spaceAround kind)) ∨
        ∃ lines n,
          (d.add (operatorGap v breakable kind true)).settle v = .broken (lines + 1) n) := by
  obtain ⟨hforced, hblank, hfixed⟩ := hd
  rcases operatorGap_before v breakable kind with h | ⟨n, h⟩ | ⟨hkeeps, start, h⟩
  · rw [h, Demands.settle, Demands.add, hforced]
    exact ⟨hblank, .inl rfl⟩
  · rw [h, Demands.settle, Demands.add, hforced]
    exact ⟨hblank, .inr ⟨0, n, rfl⟩⟩
  · have hnone : d.fixed = none := by
      by_contra hsome
      exact hkeeps (hfixed hsome)
    rw [h, Demands.settle, Demands.add, hforced, hnone]
    refine ⟨hblank, ?_⟩
    dsimp only
    split
    · exact .inr ⟨max v.keep 1 - 1, _, by rw [Nat.sub_add_cancel (Nat.le_max_right _ _)]⟩
    · exact .inl rfl

/-- Where nothing but an operator decides, `gapBetween` holds its own space, or breaks the line. -/
theorem gapBetween_beforeOp (v : GapView) (kind : OpKind) (breakable : Bool)
    {roles : List (Role × Bool)} (hroles : ∀ r ∈ roles, r.1 = .afterComma)
    (prev : Option ItemKind) :
    gapBetween v (roles ++ [(.beforeOp kind, breakable)]) prev .text =
        .inline (spaceIf (v.style.spaceAround kind)) ∨
      ∃ lines n, gapBetween v (roles ++ [(.beforeOp kind, breakable)]) prev .text =
        .broken (lines + 1) n := by
  obtain ⟨d, hgives, hd⟩ : ∃ d, GivesWay v d ∧
      Demands.ofRoles v (roles ++ [(.beforeOp kind, breakable)]) =
        d.add (operatorGap v breakable kind true) := by
    refine ⟨_, givesWay_commas v hroles (d := {}) ⟨rfl, rfl, fun h => absurd rfl h⟩, ?_⟩
    rw [Demands.ofRoles, map_append, map_singleton,
      emptyPair?_commas v kind (forall_mem_map.mpr hroles), foldl_append]
    rfl
  obtain ⟨hblank, hsettle⟩ := hgives.settle_operator breakable kind
  -- an operator asks for no blank lines, and is no comment
  have hsettled : gapBetween v (roles ++ [(.beforeOp kind, breakable)]) prev .text =
      (let gap := (d.add (operatorGap v breakable kind true)).settle v
      if prev == some .lineComment && !gap.isBroken then .broken 1 v.indent else gap) := by
    unfold gapBetween
    rw [hd]
    dsimp only
    rw [hblank]
    simp [Demands.keepsDistance, ItemKind.isComment]
  rw [hsettled]
  dsimp only
  split
  · exact .inr ⟨0, v.indent, rfl⟩
  · exact hsettle

namespace State

/-- The roles of the gap that is being read. -/
def roles (s : State) : List Role := s.marks.roles.map Prod.fst

variable {i : Item} {α : Type} {m : MemberRef} {s : State}

theorem roles_addMark (s : State) (h : i.kind.isText = false) :
    (s.addMark i).roles = i.addRole s.roles := by
  unfold roles addMark Item.addRole
  cases hkind : i.kind with
  | role r =>
    dsimp only
    unfold State.addRole
    dsimp only
    split <;> simp
  | _ => first | rfl | (rw [hkind] at h; cases h)

/-! ## What a state knows of a member -/

/-- What a state knows of a member: that its text comes next, where its text started, and its
measures. -/
def about (s : State) (m : MemberRef) :
    List MemberRef × List OpenMember × List (MemberRef × Measure) :=
  (s.marks.starts.filter (· == m), s.openMembers.filter (·.member == m),
    s.measures.filter (·.1 == m))

theorem filter_eraseP_of_ne {p q : α → Bool} (h : ∀ a, p a = true → q a = false) (l : List α) :
    (l.eraseP p).filter q = l.filter q := by
  induction l with
  | nil => rfl
  | cons a l ih =>
    rw [eraseP_cons]
    cases hp : p a with
    | true => rw [cond_true, filter_cons_of_neg (by simp [h a hp])]
    | false => rw [cond_false, filter_cons, filter_cons, ih]

theorem filter_eraseP_self (p : α → Bool) (l : List α) :
    (l.eraseP p).filter p = (l.filter p).tail := by
  induction l with
  | nil => rfl
  | cons a l ih =>
    rw [eraseP_cons]
    cases hp : p a with
    | true => rw [cond_true, filter_cons_of_pos hp, tail_cons]
    | false =>
      rw [cond_false, filter_cons_of_neg (by simp [hp]),
        filter_cons_of_neg (by simp [hp]), ih]

/-- `closeMember` of another member changes nothing `about` this one. -/
theorem about_closeMember (s : State) {m' : MemberRef} (h : m' ≠ m) :
    (s.closeMember m').about m = s.about m := by
  unfold closeMember
  split
  · rfl
  · refine Prod.ext rfl (Prod.ext ?_ ?_)
    · refine filter_eraseP_of_ne (fun o ho => ?_) _
      rw [eq_of_beq ho]
      exact beq_false_of_ne h
    · simp [about, h]

/-- `addMark` with a mark that is not one of the member changes nothing `about` it. -/
theorem about_addMark (s : State) (h : i.kind.isMarkOf m = false) :
    (s.addMark i).about m = s.about m := by
  unfold addMark
  cases hkind : i.kind with
  | role r =>
    unfold about addRole
    dsimp only
    split <;> rfl
  | alignStart m' =>
    have hne : m' ≠ m := by
      rintro rfl
      simp [hkind, ItemKind.isMarkOf] at h
    simp [about, hne]
  | align m' =>
    have hne : m' ≠ m := by
      rintro rfl
      simp [hkind, ItemKind.isMarkOf] at h
    have hclose := s.about_closeMember hne
    exact Prod.ext rfl (congrArg Prod.snd hclose :)
  | _ => rfl

theorem about_alignStart (h : i.kind = .alignStart m) :
    (s.addMark i).about m = ((s.about m).1 ++ [m], (s.about m).2) := by
  unfold addMark
  rw [h]
  simp [about]

/-- `addMark` with the `align` of the member takes its measure. -/
theorem about_align {o : OpenMember} (h : i.kind = .align m) (hs : s.about m = ([], [o], [])) :
    (s.addMark i).about m = ([], [], [(m, ⟨o.column,
      if o.line == s.line && o.column ≤ s.column then some (s.column - o.column) else none⟩)]) := by
  simp only [about, Prod.mk.injEq] at hs
  obtain ⟨hstarts, hopen, hmeasures⟩ := hs
  have hfind : s.openMembers.find? (·.member == m) = some o := by
    rw [← head?_filter, hopen, head?_cons]
  unfold addMark
  rw [h]
  dsimp only
  rw [closeMember, hfind]
  dsimp only [about]
  rw [hstarts, filter_eraseP_self, hopen, filter_append, hmeasures]
  simp

end State

namespace Pass

variable {p : Pass} {s s' : State} {i : Item} {m : MemberRef}

/-- `afterGap` starts the members that wait for a text. -/
theorem about_afterGap (start : Nat) (old : String) (ahead : List Item) :
    (p.afterGap s start old ahead).about m =
      ([], (s.about m).2.1 ++ (s.about m).1.map fun m => ⟨m,
        (p.afterGap s start old ahead).column, (p.afterGap s start old ahead).line⟩,
        (s.about m).2.2) := by
  have hwrite (s : State) (q : Piece) : (s.write p.style q).marks = s.marks ∧
      (s.write p.style q).openMembers = s.openMembers ∧
      (s.write p.style q).measures = s.measures := by
    unfold State.write State.advance
    dsimp only
    split <;> exact ⟨rfl, rfl, rfl⟩
  unfold afterGap State.arrive State.about
  dsimp only
  rw [(hwrite _ _).1, (hwrite _ _).2.1, (hwrite _ _).2.2, filter_append, filter_map]
  rfl

theorem about_writeText : (p.writeText s i).about m = s.about m := by
  unfold writeText State.write State.advance
  dsimp only
  split <;> rfl

/-! ## Up to an operator -/

/-- A pass has come to items without marks of a member.  It knows `known` of the member, and behind
these items and the rest the gap has the roles. -/
structure Reads (p : Pass) (m : MemberRef) (roles : List Role) (rest : List Item)
    (known : List MemberRef × List OpenMember × List (MemberRef × Measure)) (items : List Item)
    (s : State) : Prop where
  tracks : s.Tracks p.style
  others : ∀ i ∈ items, i.kind.isMarkOf m = false
  roles : (items ++ rest).foldl Item.addRole s.roles = roles
  about : s.about m = known

variable {roles : List Role} {items rest : List Item}
  {known : List MemberRef × List OpenMember × List (MemberRef × Measure)}

theorem Reads.mark (h : p.Reads m roles rest known (i :: items) s) (hkind : i.kind.isText = false) :
    p.Reads m roles rest known items (s.addMark i) where
  tracks := h.tracks.addMark i
  others := fun j hj => h.others j (mem_cons_of_mem i hj)
  roles := by rw [s.roles_addMark hkind]; exact h.roles
  about := by rw [s.about_addMark (h.others i mem_cons_self), h.about]

variable {opened : List OpenMember} {measures : List (MemberRef × Measure)} {kind : OpKind}

theorem Reads.text (h : p.Reads m roles rest ([], opened, measures) (i :: items) s)
    (hkind : i.kind.isText = true) (old : String) (ahead : List Item) :
    p.Reads m roles rest ([], opened, measures) items
      (p.writeText (p.afterGap s s.written old ahead) i) where
  tracks := tracks_writeText (tracks_afterGap h.tracks _ _ _) i
  others := fun j hj => h.others j (mem_cons_of_mem i hj)
  roles := by
    have hroles := h.roles
    rw [cons_append, foldl_cons, Item.addRole_of_isText hkind] at hroles
    rwa [State.roles, marks_writeText, marks_afterGap]
  about := by
    rw [about_writeText, about_afterGap, h.about]
    simp

/-- `renderFrom` comes past items without marks of a member that does not wait for its text. -/
theorem Reads.run {ahead : List Item} (h : p.Reads m roles rest ([], opened, measures) items s)
    (hrun : p.renderFrom s (items ++ ahead) = .ok s') :
    ∃ s₁ ps, p.Reads m roles rest ([], opened, measures) [] s₁ ∧
      s₁.pieces.toList = s.pieces.toList ++ ps ∧ p.renderFrom s₁ ahead = .ok s' := by
  obtain ⟨s₁, ⟨hreads, ps, hpieces⟩, hrest⟩ := renderFrom_append
    (I := fun items s₁ => p.Reads m roles rest ([], opened, measures) items s₁ ∧
      ∃ ps, s₁.pieces.toList = s.pieces.toList ++ ps)
    (fun {s₁ i _} hkind ⟨hI, ps, hps⟩ => ⟨hI.mark hkind, ps, by rwa [(s₁.addMark_spec i).2]⟩)
    (fun {s₁ i _} old ahead hkind ⟨hI, ps, hps⟩ => ⟨hI.text hkind old ahead,
      ps ++ [p.gapPiece s₁ s₁.written old ahead,
        p.textPiece (p.afterGap s₁ s₁.written old ahead) i], by simp [hps]⟩)
    ⟨h, [], (append_nil _).symm⟩ hrun
  exact ⟨s₁, ps, hreads, hpieces, hrest⟩

theorem align_addMark (h : i.kind.isAlign = false) : (s.addMark i).marks.align = s.marks.align := by
  unfold State.addMark
  cases hkind : i.kind with
  | role r =>
    unfold State.addRole
    dsimp only
    split <;> rfl
  | align m => rw [hkind] at h; cases h
  | _ => rfl

/-- `renderFrom` comes past marks that are not of a member. -/
theorem Reads.run_marks {ahead : List Item} (h : p.Reads m roles rest known items s)
    (hmarks : ∀ i ∈ items, i.kind.isText = false)
    (hrun : p.renderFrom s (items ++ ahead) = .ok s') :
    ∃ s₁, p.Reads m roles rest known [] s₁ ∧ s₁.pieces = s.pieces ∧
      ((∀ i ∈ items, i.kind.isAlign = false) → s₁.marks.align = s.marks.align) ∧
      p.renderFrom s₁ ahead = .ok s' := by
  induction items generalizing s with
  | nil => exact ⟨s, h, rfl, fun _ => rfl, hrun⟩
  | cons i items ih =>
    obtain ⟨hi, hmarks⟩ := forall_mem_cons.mp hmarks
    rw [cons_append, renderFrom_cons_mark hi] at hrun
    obtain ⟨s₁, hreads, hpieces, halign, hrest⟩ := ih (h.mark hi) hmarks hrun
    refine ⟨s₁, hreads, hpieces.trans (s.addMark_spec i).2, fun hnone => ?_, hrest⟩
    obtain ⟨hnone, hnones⟩ := forall_mem_cons.mp hnone
    rw [halign hnones, align_addMark hnone]

/-- At its `alignStart` the text of a member starts, and the pass knows where. -/
theorem Reads.start {start first : Item} {lead body ahead : List Item}
    (h : p.Reads m roles (start :: (lead ++ first :: (body ++ rest))) ([], [], []) [] s)
    (hstart : start.kind = .alignStart m) (hfirst : first.kind.isText = true)
    (hlead : ∀ i ∈ lead, i.kind.isText = false)
    (hothers : ∀ i ∈ lead ++ body, i.kind.isMarkOf m = false)
    (hrun : p.renderFrom s (start :: (lead ++ first :: (body ++ ahead))) = .ok s') :
    ∃ v : State,
      p.Reads m roles rest ([], [⟨m, p.style.columnOf v.output, v.output.count '\n'⟩], []) body
        (p.writeText v first) ∧
      p.renderFrom (p.writeText v first) (body ++ ahead) = .ok s' := by
  have hmark : start.kind.isText = false := by rw [hstart]; rfl
  rw [renderFrom_cons_mark hmark] at hrun
  have hwaits : p.Reads m roles (first :: (body ++ rest)) ([m], [], []) lead (s.addMark start) :=
    { tracks := h.tracks.addMark start
      others := fun i hi => hothers i (mem_append_left body hi)
      roles := by rw [s.roles_addMark hmark]; exact h.roles
      about := by rw [State.about_alignStart hstart, h.about]; rfl }
  obtain ⟨s₂, hreads, -, -, hrun⟩ := hwaits.run_marks hlead hrun
  obtain ⟨old, hrun⟩ := renderFrom_cons_text hfirst hrun
  have htracks := tracks_afterGap hreads.tracks s₂.written old (first :: (body ++ ahead))
  refine ⟨_, ?_, hrun⟩
  refine ⟨tracks_writeText htracks first, fun i hi => hothers i (mem_append_right lead hi), ?_,
    ?_⟩
  · have hroles := hreads.roles
    rw [nil_append, foldl_cons, Item.addRole_of_isText hfirst] at hroles
    rwa [State.roles, marks_writeText, marks_afterGap]
  · rw [about_writeText, about_afterGap, hreads.about, ← htracks.column, ← htracks.line]
    rfl

/-- At its `align` the pass takes the measure of a member, which has an end if its text is on one
line. -/
theorem Reads.align {align role : Item} {ahead : List Item} {head body : List Char}
    (h : p.Reads m roles [align, role]
      ([], [⟨m, p.style.columnOf head, head.count '\n'⟩], []) [] s) (halign : align.kind = .align m)
    (hrole : role.kind = .role (.beforeOp kind)) (houtput : s.output = head ++ body)
    (hrun : p.renderFrom s (align :: role :: ahead) = .ok s') :
    ∃ s₁ x, p.Reads m roles [] ([], [], [(m, x)]) [] s₁ ∧ s₁.pieces = s.pieces ∧
      s₁.marks.align = some m ∧
      x.stop? = (if '\n' ∈ body then none else some (p.style.columnOf (head ++ body))) ∧
      p.renderFrom s₁ ahead = .ok s' := by
  have hmark : align.kind.isText = false := by rw [halign]; rfl
  have hmark' : role.kind.isText = false := by rw [hrole]; rfl
  have hother : role.kind.isMarkOf m = false := by rw [hrole]; rfl
  rw [renderFrom_cons_mark hmark, renderFrom_cons_mark hmark'] at hrun
  have habout := State.about_align halign h.about
  dsimp only at habout
  rw [← (s.addMark align).about_addMark hother] at habout
  refine ⟨_, _, ⟨(h.tracks.addMark align).addMark role, by simp, ?_, habout⟩, ?_, ?_, ?_, hrun⟩
  · rw [State.roles_addMark _ hmark', s.roles_addMark hmark]
    exact h.roles
  · rw [((s.addMark align).addMark_spec role).2, (s.addMark_spec align).2]
  · rw [align_addMark (by rw [hrole]; rfl), State.addMark, halign]
  · rw [h.tracks.line, h.tracks.column, houtput, count_append]
    by_cases hbody : '\n' ∈ body
    · have hlines := count_pos_iff.mpr hbody
      have hline : (head.count '\n' == head.count '\n' + body.count '\n') = false := by simp; omega
      rw [hline, if_pos hbody]
      rfl
    · have hle := p.style.columnOf_le_append head hbody
      rw [count_eq_zero.mpr hbody, Nat.add_zero, if_neg hbody, if_pos (by simpa using hle),
        Measure.stop?, Option.map_some]
      exact congrArg some (Nat.add_sub_cancel' hle)

/-- `gapText` before an operator that nothing else decides is blank, and holds its padding and its
own space unless it breaks the line. -/
theorem gapText_beforeOp {commas : List Role} {sign : Item}
    (hroles : s.roles = commas ++ [.beforeOp kind]) (hcommas : ∀ r ∈ commas, r = .afterComma)
    (hsign : sign.kind = .text) (old : String) (behind : List Item) :
    (∀ c ∈ (p.gapText s.marks.align old (p.gapBefore s old (sign :: behind))).toList,
        Lexeme.isBlank c = true) ∧
      ('\n' ∈ (p.gapText s.marks.align old (p.gapBefore s old (sign :: behind))).toList ∨
        p.gapText s.marks.align old (p.gapBefore s old (sign :: behind)) =
          p.spaces s.marks.align (spaceIf (p.style.spaceAround kind))) := by
  obtain ⟨roles, last, hroles, rfl, hlast⟩ := map_eq_append_iff.mp hroles
  obtain ⟨⟨role, breakable⟩, rfl, hrole⟩ := map_eq_singleton_iff.mp hlast
  obtain rfl : role = .beforeOp kind := hrole
  have hgap : p.gapBefore s old (sign :: behind) = gapBetween (p.view s old (sign :: behind))
      (roles ++ [(.beforeOp kind, breakable)]) (s.prev.map Item.kind) .text := by
    rw [gapBefore, hroles, hsign]
  rcases gapBetween_beforeOp (p.view s old (sign :: behind)) kind breakable
    (forall_mem_map.mp hcommas) (s.prev.map Item.kind) with h | ⟨lines, n, h⟩
  · rw [hgap, h]
    refine ⟨fun c hc => ?_, .inr rfl⟩
    rcases p.spaces_blank _ _ c hc with rfl | rfl <;> rfl
  · rw [hgap, h, gapText, String.toList_append, Text.toList_repeated]
    refine ⟨fun c hc => ?_, .inl (by simp)⟩
    rcases mem_append.mp hc with hc | hc
    · rw [eq_of_mem_replicate hc]
      rfl
    · exact Annotate.isBlank_of_isTabOrSpace (indentString_blank _ _ c hc)

/-- Behind its operator `renderFrom` keeps the measure of a member. -/
theorem Reads.sign {sign : Item} {behind : List Item} {x : Measure}
    (h : p.Reads m roles [] ([], [], [(m, x)]) [] s) (hsign : sign.kind = .text)
    (hothers : ∀ i ∈ sign :: behind, i.kind.isMarkOf m = false)
    (hrun : p.renderFrom s (sign :: behind) = .ok s') :
    ∃ old v ps, s'.pieces.toList = s.pieces.toList ++
        p.gapPiece s s.written old (sign :: behind) :: p.textPiece v sign :: ps ∧
      s'.measures.filter (·.1 == m) = [(m, x)] := by
  have htext : sign.kind.isText = true := by rw [hsign]; rfl
  obtain ⟨old, hrun⟩ := renderFrom_cons_text htext hrun
  have hreads : p.Reads m _ [] ([], [], [(m, x)]) (sign :: behind) s :=
    ⟨h.tracks, hothers, rfl, h.about⟩
  rw [← append_nil behind] at hrun
  obtain ⟨s₁, ps, hreads₁, hpieces, hlast⟩ :=
    (hreads.text htext old (sign :: (behind ++ []))).run hrun
  obtain ⟨rest, -, rfl⟩ := writeGap_eq_ok hlast
  rw [append_nil] at hpieces
  refine ⟨old, p.afterGap s s.written old (sign :: behind),
    ps ++ [p.gapPiece s₁ s₁.written rest []], ?_, ?_⟩
  · simp [hpieces]
  · have habout := about_afterGap (p := p) (s := s₁) (m := m) s₁.written rest []
    rw [hreads₁.about] at habout
    exact congrArg (·.2.2) habout

/-- Where a pass has put an operator: the piece `sign` of its text, behind those of the text of its
member, from the `first` one on, and a `gap`. -/
structure Stand (p : Pass) (s : State) {items : List Item} (o : Operator items) where
  front : List Piece
  first : Piece
  body : List Piece
  gap : Piece
  sign : Piece
  behind : List Piece
  pieces_eq : s.pieces.toList = front ++ first :: (body ++ gap :: sign :: behind)
  at_first : (o.first?.map fun i => (i.offset, i.text p.source)) = some (first.offset, first.old)
  offset_sign : sign.offset = o.sign.offset
  new_sign : sign.new = o.sign.text p.source
  blank_gap : ∀ c ∈ gap.new.toList, Lexeme.isBlank c = true
  new_gap : '\n' ∈ gap.new.toList ∨
    gap.new = p.spaces (some o.member) (spaceIf (p.style.spaceAround o.kind))
  /-- The measure that is taken of the member. -/
  measure : Measure
  measures_eq : s.measures.filter (·.1 == o.member) = [(o.member, measure)]
  stop_eq : measure.stop? = if '\n' ∈ (first :: body).flatMap (·.new.toList) then none
    else some (p.style.columnOf ((front ++ first :: body).flatMap (·.new.toList)))

namespace Stand

variable {o : Operator items} (q : p.Stand s o)

/-- What is written for the text of the member. -/
def text : List Char := (q.first :: q.body).flatMap (·.new.toList)

/-- All that is written up to the end of the text of the member. -/
def upToText : List Char := (q.front ++ q.first :: q.body).flatMap (·.new.toList)

/-- All that is written up to the operator. -/
def upToSign : List Char := q.upToText ++ q.gap.new.toList

end Stand

/-- Where a pass has put an operator, if that is behind `i` pieces, the first text of its member, and
`j` pieces more. -/
def stand? (p : Pass) (s : State) (o : Operator items) (i j : Nat) : Option (p.Stand s o) :=
  let pieces := s.pieces.toList
  let rest := pieces.drop (i + 1)
  let first := pieces.getD i ⟨0, 0, "", ""⟩
  let gap := rest.getD j ⟨0, 0, "", ""⟩
  let sign := rest.getD (j + 1) ⟨0, 0, "", ""⟩
  let measure := ((s.measures.find? (·.1 == o.member)).map Prod.snd).getD default
  if h : (pieces = pieces.take i ++ first :: (rest.take j ++ gap :: sign :: rest.drop (j + 2)) ∧
      (o.first?.map fun i => (i.offset, i.text p.source)) = some (first.offset, first.old) ∧
      sign.offset = o.sign.offset ∧ sign.new = o.sign.text p.source) ∧
      (gap.new.toList.all Lexeme.isBlank = true ∧ ('\n' ∈ gap.new.toList ∨
        gap.new = p.spaces (some o.member) (spaceIf (p.style.spaceAround o.kind)))) ∧
      s.measures.filter (·.1 == o.member) = [(o.member, measure)] ∧
      measure.stop? = if '\n' ∈ (first :: rest.take j).flatMap (·.new.toList) then none
        else some (p.style.columnOf ((pieces.take i ++ first :: rest.take j).flatMap (·.new.toList)))
  then some ⟨_, first, _, gap, sign, _, h.1.1, h.1.2.1, h.1.2.2.1, h.1.2.2.2, all_eq_true.mp h.2.1.1,
    h.2.1.2, measure, h.2.2.1, h.2.2.2⟩
  else none

/-- Every `Plain` operator has a `Stand` in every pass. -/
theorem nonempty_stand (o : Operator items) (hplain : o.Plain)
    (hcount : items.countP (·.kind.isMarkOf o.member) ≤ 2) (h : p.render items = .ok s') :
    Nonempty (p.Stand s' o) := by
  obtain ⟨hsome, hcommas⟩ := hplain
  obtain ⟨first, hfirst⟩ := Option.isSome_iff_exists.mp hsome
  obtain ⟨htext, lead, body, hsplit, hlead⟩ := find?_eq_some_iff_append.mp hfirst
  have hlead (i : Item) (hi : i ∈ lead) : i.kind.isText = false := by simpa using hlead i hi
  have hothers := o.others hcount
  rw [hsplit] at hothers
  simp only [forall_mem_append, forall_mem_cons] at hothers
  obtain ⟨⟨hbefore, hlead', -, hbody⟩, hsign⟩ := hothers
  rw [o.items_eq, hsplit, append_assoc, cons_append, render] at h
  have hreads : p.Reads o.member (gapRoles (o.before ++ o.start :: o.text) ++ [.beforeOp o.kind])
      (o.start :: (lead ++ first :: (body ++ [o.align, o.role]))) ([], [], []) o.before
      { base := p.style.indent.initialIndent } := by
    refine ⟨.init _ _, hbefore, ?_, rfl⟩
    rw [← o.gapRoles_role, hsplit]
    simp [gapRoles, State.roles]
  obtain ⟨s₁, -, hreads₁, -, h⟩ := hreads.run h
  obtain ⟨v, hreads₂, h⟩ := hreads₁.start o.kind_start htext hlead
    (forall_mem_append.mpr ⟨hlead', hbody⟩) h
  obtain ⟨s₂, pieces, hreads₃, hpieces₂, h⟩ := hreads₂.run h
  have hpieces₂ : s₂.pieces.toList = v.pieces.toList ++ p.textPiece v first :: pieces := by
    simpa using hpieces₂
  have houtput : s₂.output =
      v.output ++ (p.textPiece v first :: pieces).flatMap (·.new.toList) := by
    rw [State.output, hpieces₂, flatMap_append, State.output]
  obtain ⟨s₃, x, hreads₄, hpieces₃, halign, hstop, h⟩ :=
    hreads₃.align o.kind_align o.kind_role houtput h
  obtain ⟨old, w, behind, hpieces, hmeasures⟩ :=
    hreads₄.sign o.kind_sign (forall_mem_cons.mpr hsign) h
  have hgap := gapText_beforeOp (p := p) hreads₄.roles hcommas o.kind_sign old o.behind
  rw [halign] at hgap
  exact ⟨{
    front := v.pieces.toList
    first := p.textPiece v first
    body := pieces
    gap := p.gapPiece s₃ s₃.written old (o.sign :: o.behind)
    sign := p.textPiece w o.sign
    behind := behind
    pieces_eq := by rw [hpieces, hpieces₃, hpieces₂, append_assoc, cons_append]
    at_first := by rw [hfirst]; rfl
    offset_sign := rfl
    new_sign := by rw [textPiece, itemText, o.kind_sign]
    blank_gap := by rw [gapPiece, halign]; exact hgap.1
    new_gap := by rw [gapPiece, halign]; exact hgap.2
    measure := x
    measures_eq := hmeasures
    stop_eq := by rw [flatMap_append]; exact hstop }⟩

end Pass

end Render

end CodeLayout
