import CodeLayout.Annotate.Declaration
import CodeLayout.Proofs.Annotate.Expression

/-!
# Declarations in step

Every layout of a declaration visits its leaves in order.  A child of a declaration is first offered
to a step that lays out attributes and modifiers, or signs of its own, and answers whether it did;
`Offers` describes such steps.
-/

namespace CodeLayout.Annotate

open List
open CodeLayout.Tree (leavesAll leavesAll_cons leaves_leaf)

variable {A : Nat → Prop} {c : Context} {xs : List Lexeme} {n : Nat} {visit : Visit}
  {kind : NodeKind} {t : Tree} {ts : List Tree}

/-! ## Offers -/

/-- Whenever the step answers, it answers `a`. -/
def Answers {α : Type} (c : Context) (m : Emit α) (a : α) : Prop :=
  ∀ s b s', Runs c m s b s' → b = a

variable {α : Type} {a : α} {m : Emit α}

theorem Answers.pure : Answers c (pure a) a := by
  intro s b s' hrun
  cases hrun
  rfl

theorem Answers.bind {β : Type} {b : β} {f : α → Emit β} (hf : ∀ a, Answers c (f a) b) :
    Answers c (m >>= f) b := by
  intro s b' s' hrun
  have hbind : Except.bind ((m.run c).run s) (fun p => ((f p.1).run c).run p.2) = .ok (b', s') :=
    hrun
  cases hm : (m.run c).run s with
  | error e =>
    rw [hm] at hbind
    cases hbind
  | ok p =>
    rw [hm] at hbind
    exact hf p.1 p.2 b' s' hbind

theorem Answers.ite {b : Prop} [Decidable b] {m' : Emit α} (hm : Answers c m a)
    (hm' : Answers c m' a) : Answers c (if b then m else m') a := by
  split
  · exact hm
  · exact hm'

/-- The step visits the leaves and answers `true`, or does nothing and answers `false`. -/
def Offers (c : Context) (xs : List Lexeme) (idx : List Nat) (m : Emit Bool) : Prop :=
  ∀ s, Rested c xs s → (∀ i ∈ idx, s.cursor ≤ i ∧ IsLeaf xs i) →
    Goes c m s false s ∨
    ∃ s', Goes c m s true s' ∧ Rested c xs s' ∧ s.cursor ≤ s'.cursor ∧
      (idx ≠ [] → Past s'.cursor) ∧ ∀ j, s.cursor ≤ j → (∀ i ∈ idx, i < j) → s'.cursor ≤ j

namespace Offers

variable {idx : List Nat} {m : Emit Bool}

theorem done (hm : Visits c xs idx m) (ha : Answers c m true) : Offers c xs idx m := by
  intro s hs hidx
  obtain ⟨a, s', hrun, hrest⟩ := hm s hs trivial hidx
  obtain rfl := ha s a s' hrun.runs
  exact .inr ⟨s', hrun, hrest⟩

theorem refused : Offers c xs idx (pure false) := fun _ _ _ => .inl (.pure _)

theorem ite {b : Prop} [Decidable b] {m' : Emit Bool} (hm : Offers c xs idx m)
    (hm' : Offers c xs idx m') : Offers c xs idx (if b then m else m') := by
  split
  · exact hm
  · exact hm'

/-- `Offers` where the answer of a step that only looks is known. -/
theorem look {α : Type} {a : α} {m : Emit α} {f : α → Emit Bool} (hm : ∀ s, Goes c m s a s)
    (hf : Offers c xs idx (f a)) : Offers c xs idx (m >>= f) := by
  intro s hs hidx
  rcases hf s hs hidx with hrun | ⟨s', hrun, hrest⟩
  · exact .inl ((hm s).bind hrun)
  · exact .inr ⟨s', (hm s).bind hrun, hrest⟩

theorem kindAt_bind {i : Nat} {f : TokenKind → Emit Bool}
    (hf : Offers c xs idx (f (c.token i).kind)) :
    Offers c xs idx (kindAt i >>= f) := look (fun _ => Runs.goes rfl fun _ => rfl) hf

/-- What a step `Offers` for the first tree of a row decides how to go on. -/
theorem cons_to {β : Type} {k k' : Emit β} {B : Nat → Prop} (hr : Row c n (t :: ts))
    (hm : Offers c xs t.leaves m)
    (hB : ∀ k k', A k → k ≤ k' → (t.leaves ≠ [] → Past k') → B k')
    (hdone : Steps c xs False B (leavesAll ts) k')
    (hnot : Steps c xs False A (leavesAll (t :: ts)) k) :
    Steps c xs False A (leavesAll (t :: ts))
      (m >>= fun done => if !done then k else k') := by
  intro s hs hA hidx
  have hall := hidx
  rw [leavesAll_cons] at hidx
  rcases hm s hs fun i hi => hidx i (mem_append_left _ hi) with
    hrun | ⟨s₁, hrun₁, hready₁, hle₁, hmoved₁, hbound₁⟩
  · obtain ⟨b, s', hrun', hrest⟩ := hnot s hs hA hall
    exact ⟨b, s', hrun.bind hrun', hrest⟩
  · have hts : ∀ j ∈ leavesAll ts, s₁.cursor ≤ j ∧ IsLeaf xs j := by
      intro j hj
      obtain ⟨hcur, hlen⟩ := hidx j (mem_append_right _ hj)
      exact ⟨hbound₁ j hcur fun i hi => hr.lt_of_cons i hi j hj, hlen⟩
    obtain ⟨b, s₂, hrun₂, hready₂, hle₂, hmoved₂, hbound₂⟩ :=
      hdone s₁ hready₁ (hB _ _ hA hle₁ hmoved₁) hts
    refine ⟨b, s₂, hrun₁.bind hrun₂, hready₂, hle₁.trans hle₂, fun hne => ?_, ?_⟩
    · rw [leavesAll_cons, ne_eq, append_eq_nil_iff, not_and_or] at hne
      exact hne.elim (fun h => (hmoved₁ h).trans_le hle₂) hmoved₂
    · intro j hj hlt
      rw [leavesAll_cons] at hlt
      refine hbound₂ j (hbound₁ j hj ?_) ?_
      · exact fun i hi => hlt i (mem_append_left _ hi)
      · exact fun i hi => hlt i (mem_append_right _ hi)

theorem cons {β : Type} {k k' : Emit β} (hr : Row c n (t :: ts))
    (hm : Offers c xs t.leaves m) (hdone : Visits c xs (leavesAll ts) k')
    (hnot : Visits c xs (leavesAll (t :: ts)) k) :
    Visits c xs (leavesAll (t :: ts)) (m >>= fun done => if !done then k else k') :=
  hm.cons_to hr (fun _ _ _ _ _ => trivial) hdone hnot

end Offers

section

variable (hc : Reading c xs) (hv : Follows c xs n visit)
include hc hv

/-- `declarationFront` lays out attributes and modifiers in front of a declaration. -/
theorem offers_declarationFront (hr : Row c n [t]) (member : Bool) (rest : List Tree) :
    Offers c xs t.leaves (declarationFront visit kind member t rest) := by
  cases t with
  | node k w cs =>
    unfold declarationFront
    dsimp only
    split
    · next hk =>
      obtain rfl : k = .attributeGroup := by simpa using hk
      refine .done ?_ (.bind fun _ => .bind fun _ => .pure)
      have hattributes := (visits_attributes hv hr kind).bind_emit (f := fun _ => pure true)
        fun _ => .pure
      rwa [bind_assoc] at hattributes
    · exact .refused
  | leaf i w =>
    unfold declarationFront
    dsimp only
    refine .kindAt_bind (.ite .refused ?_)
    have hrole (more : Bool) : Steps c xs False (After xs i) [] (do
        role (if member && !more then .afterModifiers else .afterKeyword)
        return true) := by
      exact .role_past After.past .pure
    rw [leaves_leaf]
    cases rest with
    | nil =>
      refine .done (.leaf_bind hc False.elim ?_ (by simp)) ?_
      · exact .emit_bind .pure fun _ => hrole _
      · exact .bind fun _ => .bind fun _ => .bind fun _ => .pure
    | cons u us =>
      refine .done (.leaf_bind hc False.elim ?_ (by simp)) ?_
      · exact .emit_bind marks_leafKind? fun _ => .emit_bind .pure fun _ => hrole _
      · exact .bind fun _ => .bind fun _ => .bind fun _ => .bind fun _ => .pure

/-! ## Types -/

theorem visits_typePart (hr : Row c n [t]) : Visits c xs t.leaves (typePart visit kind t) := by
  unfold typePart
  split
  · rw [leaves_leaf]
    refine .kindAt_bind ?_
    split
    · exact visits_leafThen hc
    · next hk => exact visits_closeParen hc (by rw [hk]; rfl)
    · exact visits_leaf hc
  · exact hv.visits kind _ hr

theorem visits_typeList (hr : Row c n ts) :
    Visits c xs (leavesAll ts) (typeList visit kind ts) := by
  refine visits_forM hr fun t _ ht => .look (goes_leafKind? c t) ?_
  split
  · next i hkind hleaf =>
    obtain ⟨w, rfl⟩ := eq_leaf_of_leafIndex? hleaf
    have hk : (c.token i).kind = .pipe := Option.some.inj hkind
    rw [leaves_leaf]
    exact visits_op hc (by rw [hk]; decide)
  · next i hkind hleaf =>
    obtain ⟨w, rfl⟩ := eq_leaf_of_leafIndex? hleaf
    have hk : (c.token i).kind = .ampersand := Option.some.inj hkind
    rw [leaves_leaf]
    exact visits_op hc (by rw [hk]; decide)
  · exact visits_typePart hc hv ht

theorem visits_colonType (hr : Row c n ts) :
    Visits c xs (leavesAll ts) (colonType visit kind ts) := by
  refine visits_forM hr fun t _ ht => .look (goes_leafKind? c t) ?_
  split
  · next i hkind hleaf =>
    obtain ⟨w, rfl⟩ := eq_leaf_of_leafIndex? hleaf
    have hk : (c.token i).kind = .colon := Option.some.inj hkind
    rw [leaves_leaf]
    exact visits_between hc (ahead_of_ne (by rw [hk]; decide))
  · exact visits_typePart hc hv ht

/-! ## Functions -/

theorem visits_functionParts (hr : Row c n ts)
    (brace : Role) : Visits c xs (leavesAll ts) (functionParts visit kind brace ts) := by
  induction ts with
  | nil => exact .nothing .pure
  | cons t ts ih =>
    have hrest := ih hr.tail
    rw [functionParts]
    dsimp only
    refine (offers_declarationFront hc hv hr.head _ ts).cons hr hrest ?_
    split
    · exact .cons hr (visits_blockOf hc hv hr.head rfl .function _) fun _ => hrest
    · exact .cons hr (hv.visits kind _ hr.head) fun _ => hrest
    · next i w =>
      refine .kindAt_bind ?_
      split
      · exact .cons hr (.at_leaf (visits_leafThen hc)) fun _ => hrest
      · next hk => exact .cons hr (.at_leaf (visits_semi hc hk)) fun _ => hrest
      · exact .cons hr (.at_leaf (visits_leaf hc)) fun _ => hrest

theorem visits_functionDecl (hr : Row c n t.children) :
    Visits c xs (leavesAll t.children) (functionDecl visit kind t) := by
  have hparts (brace : Role) :
      Visits c xs (leavesAll t.children) (functionParts visit kind brace t.children) :=
    visits_functionParts hc hv hr brace
  unfold functionDecl
  cases t.findChild? .paramList with
  | none => exact .emit_bind .pure fun _ => .read_bind (fun _ => rfl) (hparts _)
  | some params => exact .emit_bind marks_isMultiline fun _ => .read_bind (fun _ => rfl) (hparts _)

theorem visits_paramList (hr : Row c n ts)
    (parent : NodeKind) : Visits c xs (leavesAll ts) (paramList visit parent kind ts) :=
  .read_bind (fun _ => rfl) (visits_list hc hv hr _ none)

/-- `typedParts` steps through the children of a declaration with a type, given what its own signs
do. Behind the type stands a role: there is a name before the type, or the first child has leaves.
-/
theorem steps_typedParts (hr : Row c n ts)
    {own : Nat → Emit Bool} (hown : ∀ i, Offers c xs [i] (own i)) (member : Bool) (toName : Nat)
    (hname : (∀ k, A k → Past k) ∨ toName = 0 ∨ ∀ t, ts.head? = some t → t.leaves ≠ []) :
    Steps c xs False A (leavesAll ts) (typedParts visit kind member own toName ts) := by
  induction ts generalizing toName A with
  | nil => exact .nothing .pure
  | cons t ts ih =>
    -- the role behind the type is emitted only at the last part before the name
    have hmoved : ∀ k k', A k → k ≤ k' → (t.leaves ≠ [] → Past k') → (toName ≠ 0 → Past k') := by
      intro k k' hA hle hleaf hpos
      rcases hname with hpast | hzero | hhead
      · exact (hpast k hA).trans_le hle
      · exact absurd hzero hpos
      · exact hleaf (hhead t rfl)
    have hrest := ih (A := fun k => toName ≠ 0 → Past k) hr.tail (toName - 1) (by
      by_cases hzero : toName = 0
      · exact .inr (.inl (by rw [hzero]))
      · exact .inl fun _ h => h hzero)
    rw [typedParts]
    dsimp only
    refine (offers_declarationFront hc hv hr.head _ ts).cons_to hr hmoved hrest ?_
    have hother : Steps c xs False A (leavesAll (t :: ts)) (do
        if toName > 0 then
          typePart visit kind t
          if toName == 1 then role .afterType
        else visit kind t
        typedParts visit kind member own (toName - 1) ts) := by
      split
      · next hpos =>
        refine .cons_to hr (.of_visits (visits_typePart hc hv hr.head)) hmoved fun _ => ?_
        exact .role_if (fun _ h => h hpos.ne') hrest
      · exact .cons_to hr (.of_visits (hv.visits kind t hr.head)) hmoved fun _ => hrest
    split
    · next i hleaf =>
      have hsign : Offers c xs t.leaves (own i) := by
        rw [leaves_of_leafIndex? hleaf]
        exact hown i
      exact hsign.cons_to hr hmoved hrest hother
    · exact Offers.refused.cons_to hr hmoved hrest hother

omit hc hv in
theorem offers_paramSign (hc : Reading c xs) (i : Nat) : Offers c xs [i] (paramSign i) := by
  refine .kindAt_bind ?_
  split
  · next hk =>
    refine .done ((visits_op hc fun hecho => ?_).bind_emit fun _ => .pure) (.bind fun _ => .pure)
    rw [hecho] at hk
    cases hk
  · exact .refused

section

variable (hr : Row c n ts)
include hr

theorem visits_param (hformed : Tree.Headed (fun _ => False) ts) :
    Visits c xs (leavesAll ts) (param visit kind ts) := by
  obtain ⟨name?, hname, -⟩ := findSign?_spec c startsParamName ts
  refine .look hname (steps_typedParts hc hv hr (offers_paramSign hc) _ _ (.inr (.inr ?_)))
  exact fun t ht => (hformed t ht).resolve_right id

/-! ## Classes and their members -/

theorem visits_typeDecl : Visits c xs (leavesAll ts) (typeDecl visit kind ts) := by
  induction ts with
  | nil => exact .nothing .pure
  | cons t ts ih =>
    have hrest := ih hr.tail
    rw [typeDecl]
    dsimp only
    refine (offers_declarationFront hc hv hr.head _ ts).cons hr hrest ?_
    cases t with
    | leaf i w =>
      refine .kindAt_bind (.ite ?_ ?_)
      · exact .cons hr (.at_leaf (visits_leafThen hc)) fun _ => hrest
      · exact .cons hr (.at_leaf (visits_leaf hc)) fun _ => hrest
    | node k w cs => exact .cons hr (hv.visits kind _ hr.head) fun _ => hrest

theorem visits_inheritanceParts {front : Role} :
    Visits c xs (leavesAll ts) (inheritanceParts visit kind front ts) := by
  induction ts with
  | nil => exact .nothing .pure
  | cons t ts ih =>
    have hrest := ih hr.tail
    cases t with
    | node k w cs => exact .cons hr (hv.visits kind _ hr.head) fun _ => hrest
    | leaf i w =>
      have hfronted {m : Emit Unit} (hm : Visits c xs (leavesAll ts) m)
          (hne : (c.token i).kind ≠ .openTagWithEcho) :
          Visits c xs (leavesAll (.leaf i w :: ts)) (do
            between front i .afterKeyword
            mark .anchor
            m) :=
        .cons hr (.at_leaf (visits_between hc (ahead_of_ne hne))) fun _ =>
          .emit_bind marks_anchor fun _ => hm
      rw [inheritanceParts]
      refine .kindAt_bind ?_
      split
      · next hk => exact hfronted hrest (by rw [hk]; decide)
      · next hk => exact hfronted hrest (by rw [hk]; decide)
      · next hk =>
        refine .cons_past hr (.at_leaf (visits_comma hc hk)) (.inl (by simp)) fun _ => ?_
        exact .role_if (fun _ => id) (.of_visits hrest)
      · exact .cons hr (.at_leaf (visits_leaf hc)) fun _ => hrest

theorem visits_inheritanceClause :
    Visits c xs (leavesAll ts) (inheritanceClause visit kind ts) := by
  refine .read_bind (fun _ => rfl) (.emit_bind marks_indent fun _ => .bind_emit ?_ fun _ => ?_)
  · exact visits_inheritanceParts hc hv hr
  · exact .mark_bind marks_anchorEnd fun _ => marks_dedent

theorem visits_classBody
    (hpaired : Tree.Paired (Parsed.kindOf c.tokens) .blockBegin .blockEnd ts) (parent : NodeKind) :
    Visits c xs (leavesAll ts) (classBody visit parent kind ts) := by
  unfold classBody
  exact visits_braced hc hv hr hpaired _ _ _

end

omit hc hv in
theorem offers_fieldSign (hc : Reading c xs) (i : Nat) : Offers c xs [i] (fieldSign i) := by
  refine .kindAt_bind ?_
  have hdone {m : Emit Unit} (hm : Visits c xs [i] m) :
      Offers c xs [i] (do m; return true) :=
    .done (hm.bind_emit fun _ => .pure) (.bind fun _ => .pure)
  split
  · exact hdone (visits_leafThen hc)
  · next hk => exact hdone (visits_comma hc hk)
  · next hk => exact hdone (visits_semi hc hk)
  · exact .refused

section

variable (hr : Row c n ts)
include hr

/-- `fieldDecl` without a leaf before its type starts with its name, and has no type. -/
theorem visits_fieldDecl (hformed : Tree.Headed (fun t => t.isKind .propertyElement = true) ts) :
    Visits c xs (leavesAll ts) (fieldDecl visit kind ts) := by
  refine steps_typedParts hc hv hr (offers_fieldSign hc) _ _ (.inr ?_)
  cases ts with
  | nil => exact .inr nofun
  | cons t ts =>
    rcases hformed t rfl with hleaves | hkind
    · refine .inr fun u hu => ?_
      cases hu
      exact hleaves
    · -- the first child is the name
      left
      simp [findIdx_cons, hkind]

theorem visits_traitUse : Visits c xs (leavesAll ts) (traitUse visit kind ts) := by
  refine visits_forM hr fun t _ ht => ?_
  cases t with
  | leaf i w =>
    rw [leaves_leaf]
    exact visits_walkLeaf hc
  | node k w cs => exact hv.visits kind _ ht

theorem visits_traitUseParts (size : Nat) (first : Bool) :
    Visits c xs (leavesAll ts) (traitUseParts visit kind size first ts) := by
  induction ts generalizing first with
  | nil => exact .nothing .pure
  | cons t ts ih =>
    have hrest := ih hr.tail false
    cases t with
    | node k w cs => exact .cons hr (hv.visits kind _ hr.head) fun _ => hrest
    | leaf i w =>
      rw [traitUseParts]
      refine .kindAt_bind ?_
      split
      · next hk =>
        refine .cons_past hr (.at_leaf ?_) (.inl (by simp)) fun _ => ?_
        · exact visits_thenLeaf hc (ahead_of_ne (by rw [hk]; decide))
        · exact .emit_bind marks_indent fun _ => .role_past (fun _ => id) (.of_visits hrest)
      · next hk =>
        refine .emit_bind marks_dedentBefore fun _ => .cons hr (.at_leaf ?_) fun _ => hrest
        exact visits_thenLeaf hc (ahead_of_ne (by rw [hk]; decide))
      · next hk =>
        refine .cons_past hr (.at_leaf (visits_semi hc hk)) (.inl (by simp)) fun _ => ?_
        exact .ite (.role_past (fun _ => id) (.of_visits hrest)) (.of_visits hrest)
      · next hk =>
        refine .cons hr (.at_leaf (visits_between hc (ahead_of_ne ?_))) fun _ => hrest
        rw [hk]
        decide
      · exact .cons hr (.at_leaf (visits_leaf hc)) fun _ => hrest

theorem visits_traitUseBody : Visits c xs (leavesAll ts) (traitUseBody visit kind ts) :=
  .read_bind (fun _ => rfl) (visits_traitUseParts hc hv hr _ _)

theorem visits_attributeGroup : Visits c xs (leavesAll ts) (attributeGroup visit kind ts) :=
  .read_bind (fun _ => rfl) (visits_list hc hv hr _ none)

end

end

end CodeLayout.Annotate
