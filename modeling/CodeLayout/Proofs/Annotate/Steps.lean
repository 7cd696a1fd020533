import CodeLayout.Annotate.Expression
import CodeLayout.Proofs.Annotate.Tame

/-!
# Steps in the order of tokens

A construct is laid out in step with the tokens if it visits leaves from left to right.
`Visits c xs idx m` says that of a step `m`, which may visit the leaves `idx`: from a state whose
cursor lies before all of them it answers, keeps the state ready and tame, and moves the cursor behind
one of them at most.  Two steps visit the leaves of both if those of the first come before those of
the second; leaves may be left out once one was visited, since what no leaf takes is emitted with what
follows.

`Steps` says the same of states of which more is known: where the cursor stands, which tells where a
role lands that follows a leaf, and what is known of the next leaf, for which a role is queued: one
that widens its gap stands before no tag.
-/

namespace CodeLayout.Annotate

open List
open CodeLayout.Tree (leavesAll leavesAll_nil)

/-! ## Marks -/

theorem isText_of_isMark {kind : ItemKind} (h : kind.isMark = true) : kind.isText = false := by
  simpa using (Bool.and_eq_true_iff.mp h).1

/-- The step emits nothing but marks, and none that widens its gap. -/
structure Marks {α : Type} (c : Context) (m : Emit α) : Prop where
  emits : ∀ {n}, Emits c n [] m
  tame : ∀ {xs w}, Brings c (Tame xs w) m fun _ => Tame xs w

namespace Marks

variable {α β : Type} {c : Context} {m m' : Emit α} {f : α → Emit β}

theorem pure {a : α} : Marks c (pure a : Emit α) := ⟨.pure, .pure fun _ hs => hs⟩

theorem mark_bind (hm : Marks c m) (hf : ∀ a, Marks c (f a)) : Marks c (m >>= f) :=
  ⟨.mark_bind hm.emits fun a => (hf a).emits, .bind hm.tame fun a => (hf a).tame⟩

theorem ite {b : Prop} [Decidable b] (hm : Marks c m) (hm' : Marks c m') :
    Marks c (if b then m else m') := by
  split
  · exact hm
  · exact hm'

/-- A step that only looks emits nothing, so that it `Marks`. -/
theorem of_look (hm : ∀ s, ∃ a, Runs c m s a s)
    (hblind : ∀ margin, m (c.withMargin margin) = m c) : Marks c m :=
  ⟨.of_look hm hblind, .look (.of_runs hm)⟩

/-- `Marks` where the source, the tokens and the style are known. -/
theorem read_bind {f : Context → Emit β} (hblind : ∀ margin, f (c.withMargin margin) = f c)
    (hf : Marks c (f c)) : Marks c (read >>= f) :=
  ⟨.read_bind hblind hf.emits, .read_bind hf.tame⟩

end Marks

section Primitives

variable {c : Context} {i : Nat} {kind : ItemKind} {r : Role}

theorem marks_kindAt : Marks c (kindAt i) := .of_look (fun _ => ⟨_, rfl⟩) fun _ => rfl

theorem marks_triviaBefore : Marks c (triviaBefore i) := .of_look (fun _ => ⟨_, rfl⟩) fun _ => rfl

theorem marks_triviaFrom : Marks c (triviaFrom i) := .of_look (fun _ => ⟨_, rfl⟩) fun _ => rfl

theorem marks_peekSignificant : Marks c peekSignificant := .of_look (fun _ => ⟨_, rfl⟩) fun _ => rfl

theorem marks_mark (hkind : kind.isMark = true) (hwidens : kind.widens = false) :
    Marks c (mark kind) := by
  refine ⟨emits_mark hkind, fun s a s' hrun hs => ?_⟩
  exact hrun.tame_mark hs (isText_of_isMark hkind) (by simp [hwidens])

theorem marks_indent {width : Nat} : Marks c (indent width) := marks_mark rfl rfl

theorem marks_dedent {width : Nat} : Marks c (dedent width) := marks_mark rfl rfl

theorem marks_anchor : Marks c (mark .anchor) := marks_mark rfl rfl

theorem marks_anchorEnd : Marks c (mark .anchorEnd) := marks_mark rfl rfl

/-- A mark that is put off with `queue` is emitted later. -/
theorem marks_queue {lead : Bool} (hkind : kind.isMark = true) (hwidens : kind.widens = false) :
    Marks c (queue kind lead) := by
  refine ⟨emits_queue hkind, fun s a s' hrun hs => ?_⟩
  refine hrun.tame_queue hs (isText_of_isMark hkind) ?_ ?_ id
  · simp [hwidens]
  · simp [hwidens]

theorem marks_blank {policy : BlankPolicy} : Marks c (lead (.blank policy)) := marks_queue rfl rfl

theorem marks_dedentBefore {width : Nat} : Marks c (dedentBefore width) := marks_queue rfl rfl

end Primitives

/-! ## Steps -/

/-- The state is ready and tame; of the place that a queued role which widens its gap waits for, `W` is
known. -/
structure Poised (c : Context) (xs : List Lexeme) (W : Prop) (s : State) : Prop where
  ready : Ready c xs s
  tame : Tame xs W s

/-- No role is queued that widens its gap. -/
abbrev Rested (c : Context) (xs : List Lexeme) (s : State) : Prop := Poised c xs False s

/-- The step visits some of the leaves, in order, from a state with a cursor in `A`; `W` is known of
the place that queued roles wait for. -/
def Steps {α : Type} (c : Context) (xs : List Lexeme) (W : Prop) (A : Nat → Prop) (idx : List Nat)
    (m : Emit α) : Prop :=
  ∀ s, Poised c xs W s → A s.cursor → (∀ i ∈ idx, s.cursor ≤ i ∧ IsLeaf xs i) →
    ∃ a s', Goes c m s a s' ∧ Rested c xs s' ∧ s.cursor ≤ s'.cursor ∧
      (idx ≠ [] → 0 < s'.cursor) ∧ ∀ j, s.cursor ≤ j → (∀ i ∈ idx, i < j) → s'.cursor ≤ j

/-- The step visits some of the leaves, in order. -/
abbrev Visits {α : Type} (c : Context) (xs : List Lexeme) (idx : List Nat)
    (m : Emit α) : Prop := Steps c xs False (fun _ => True) idx m

/-- The cursor stands behind a leaf. -/
abbrev Past (cursor : Nat) : Prop := 0 < cursor

/-- The cursor stands right behind the token. -/
def After (xs : List Lexeme) (i : Nat) : Nat → Prop := fun cursor => cursor = i + 1 ∧ i < xs.length

theorem After.past {xs : List Lexeme} {i : Nat} : ∀ k, After xs i k → Past k := by
  rintro _ ⟨rfl, -⟩
  exact Nat.succ_pos i

/-- The role may stand right before the token. -/
def Ahead (c : Context) (i : Nat) (r : Role) : Prop :=
  (ItemKind.role r).widens = true → (c.tokens.getD i default).kind ≠ .openTagWithEcho

namespace Steps

variable {V W : Prop} {A B : Nat → Prop} {α β : Type} {c : Context} {xs : List Lexeme}
  {is js : List Nat} {m : Emit α} {f : α → Emit β}

/-- `Steps` where more is known of the cursor. -/
theorem of_cursor (hm : Steps c xs W B is m) (hA : ∀ k, A k → B k) : Steps c xs W A is m :=
  fun s hs hs' => hm s hs (hA _ hs')

theorem of_visits (hm : Visits c xs is m) : Steps c xs False A is m :=
  hm.of_cursor fun _ _ => trivial

/-- `Steps` where more is known of the place that a role waits for. -/
theorem relax (hV : V → W) (hm : Steps c xs W A is m) : Steps c xs V A is m :=
  fun s hs => hm s ⟨hs.ready, hs.tame.mono hV⟩

/-- `Steps` may leave out leaves behind a leaf. -/
theorem mono (hm : Steps c xs W A is m) (hsub : ∀ i ∈ is, i ∈ js)
    (hne : is ≠ [] ∨ ∀ k, A k → Past k) : Steps c xs W A js m := by
  intro s hs hA hjs
  obtain ⟨a, s', hrun, hready, hle, hmoved, hbound⟩ := hm s hs hA fun i hi => hjs i (hsub i hi)
  refine ⟨a, s', hrun, hready, hle, fun _ => ?_,
    fun j hj hlt => hbound j hj fun i hi => hlt i (hsub i hi)⟩
  exact hne.elim hmoved fun h => (h _ hA).trans_le hle

/-- A step that `Emits` only marks, before a visit. -/
theorem emits_bind (hm : Emits c 0 [] m)
    (htame : ∀ s a s', Runs c m s a s' → A s.cursor → Tame xs V s → Tame xs W s')
    (hf : ∀ a, Steps c xs W A js (f a)) : Steps c xs V A js (m >>= f) := by
  intro s hs hA hidx
  obtain ⟨a, s₁, hrun₁, hpush⟩ := hm s hs.ready.pending
  have hcursor : s₁.cursor = s.cursor := hpush.cursor
  have hs₁ : Poised c xs W s₁ :=
    ⟨hs.ready.pushes hpush, htame s a s₁ hrun₁.runs hA hs.tame⟩
  obtain ⟨b, s₂, hrun₂, hrest⟩ := hf a s₁ hs₁ (hcursor ▸ hA) (by rw [hcursor]; exact hidx)
  rw [hcursor] at hrest
  exact ⟨b, s₂, hrun₁.bind hrun₂, hrest⟩

/-- `Marks` may be emitted before a visit. -/
theorem emit_bind (hm : Marks c m) (hf : ∀ a, Steps c xs W A js (f a)) :
    Steps c xs W A js (m >>= f) :=
  emits_bind hm.emits (fun s a s' hrun _ hs => hm.tame s a s' hrun hs) hf

theorem pure {a : α} : Steps c xs False A [] (pure a : Emit α) := by
  intro s hs _ _
  exact ⟨a, s, .pure a, hs, Nat.le_refl _, fun h => absurd rfl h, fun j hj _ => hj⟩

/-- A step that emits nothing but `Marks` visits nothing. -/
theorem of_marks (hm : Marks c m) : Steps c xs False A [] m := by
  have hbind : Steps c xs False A [] (m >>= Pure.pure) := emit_bind hm fun _ => pure
  rwa [bind_pure] at hbind

theorem nothing (hm : Marks c m) : Steps c xs False A (leavesAll []) m := by
  rw [leavesAll_nil]
  exact of_marks hm

/-- Behind a leaf (`Past`) all leaves may be left out. -/
theorem none (hA : ∀ k, A k → Past k) (hm : Marks c m) : Steps c xs False A js m :=
  (of_marks hm).mono nofun (.inr hA)

section

variable (hm : Steps c xs W A is m)
include hm

/-- `Steps` for one step after the other, with the leaves of both. -/
theorem bind_to (hB : ∀ k k', A k → k ≤ k' → (is ≠ [] → Past k') → B k')
    (hf : ∀ a, Steps c xs False B js (f a)) (hlt : ∀ i ∈ is, ∀ j ∈ js, i < j) :
    Steps c xs W A (is ++ js) (m >>= f) := by
  intro s hs hA hidx
  obtain ⟨a, s₁, hrun₁, hready₁, hle₁, hmoved₁, hbound₁⟩ :=
    hm s hs hA fun i hi => hidx i (mem_append_left _ hi)
  have hjs : ∀ j ∈ js, s₁.cursor ≤ j ∧ IsLeaf xs j := by
    intro j hj
    obtain ⟨hcur, hlen⟩ := hidx j (mem_append_right _ hj)
    exact ⟨hbound₁ j hcur fun i hi => hlt i hi j hj, hlen⟩
  obtain ⟨b, s₂, hrun₂, hready₂, hle₂, hmoved₂, hbound₂⟩ :=
    hf a s₁ hready₁ (hB _ _ hA hle₁ hmoved₁) hjs
  refine ⟨b, s₂, hrun₁.bind hrun₂, hready₂, hle₁.trans hle₂, fun hne => ?_, ?_⟩
  · rw [ne_eq, append_eq_nil_iff, not_and_or] at hne
    exact hne.elim (fun h => (hmoved₁ h).trans_le hle₂) hmoved₂
  · intro j hj hall
    refine hbound₂ j (hbound₁ j hj ?_) ?_
    · exact fun i hi => hall i (mem_append_left _ hi)
    · exact fun i hi => hall i (mem_append_right _ hi)

theorem bind (hf : ∀ a, Visits c xs js (f a))
    (hlt : ∀ i ∈ is, ∀ j ∈ js, i < j) : Steps c xs W A (is ++ js) (m >>= f) :=
  hm.bind_to (fun _ _ _ _ _ => trivial) hf hlt

/-- `Steps` where what follows comes behind a leaf (`Past`). -/
theorem bind_past (hne : is ≠ [] ∨ ∀ k, A k → Past k)
    (hf : ∀ a, Steps c xs False Past js (f a)) (hlt : ∀ i ∈ is, ∀ j ∈ js, i < j) :
    Steps c xs W A (is ++ js) (m >>= f) :=
  hm.bind_to (fun k _ hA hle hmoved => hne.elim hmoved fun h => (h k hA).trans_le hle) hf hlt

/-- `Marks` may be emitted after a visit. -/
theorem bind_emit (hf : ∀ a, Marks c (f a)) : Steps c xs W A is (m >>= f) := by
  have := hm.bind (fun a => of_marks (hf a)) (by simp)
  rwa [append_nil] at this

end

/-- `Steps` where the answer of a step that only looks is known. -/
theorem look {a : α} (hm : ∀ s, Goes c m s a s) (hf : Steps c xs W A js (f a)) :
    Steps c xs W A js (m >>= f) := by
  intro s hs hA hidx
  obtain ⟨b, s', hrun, hrest⟩ := hf s hs hA hidx
  exact ⟨b, s', (hm s).bind hrun, hrest⟩

theorem read_bind {f : Context → Emit β} (hblind : ∀ margin, f (c.withMargin margin) = f c)
    (hf : Steps c xs W A js (f c)) : Steps c xs W A js (read >>= f) := by
  intro s hs hA hidx
  obtain ⟨a, s', hrun, hrest⟩ := hf s hs hA hidx
  refine ⟨a, s', fun margin => .bind rfl ?_, hrest⟩
  rw [hblind]
  exact hrun margin

variable {i : Nat} {m' : Emit α} {b : Bool} {r : Role}

theorem kindAt_bind {f : TokenKind → Emit β}
    (hf : Steps c xs W A js (f (c.token i).kind)) :
    Steps c xs W A js (kindAt i >>= f) := look (fun _ => Runs.goes rfl fun _ => rfl) hf

theorem ite {b : Prop} [Decidable b] (hm : Steps c xs W A is m)
    (hm' : Steps c xs W A is m') : Steps c xs W A is (if b then m else m') := by
  split
  · exact hm
  · exact hm'

/-- One of two ways to emit `Marks` before a visit. -/
theorem either (hm : Marks c m) (hm' : Marks c m') (hf : ∀ a, Steps c xs W A js (f a)) :
    Steps c xs W A js (if b then m >>= f else m' >>= f) :=
  .ite (.emit_bind hm hf) (.emit_bind hm' hf)

/-- `Marks` that are emitted under a condition before a visit. -/
theorem optional {m : Emit PUnit} {f : Emit β} (hm : Marks c m)
    (hf : Steps c xs W A js f) : Steps c xs W A js (if b then m >>= fun _ => f else f) :=
  .ite (.emit_bind hm fun _ => hf) hf

/-- `leaf` is visited first, at which what is queued may be emitted. -/
theorem leaf_bind {f : Unit → Emit β} (hc : Reading c xs)
    (hW : W → (c.token i).kind ≠ .openTagWithEcho)
    (hf : Steps c xs False (After xs i) js (f ())) (hlt : ∀ j ∈ js, i < j) :
    Steps c xs W A (i :: js) (leaf i >>= f) := by
  intro s hs _ hidx
  obtain ⟨hcur, hleaf⟩ := hidx i mem_cons_self
  have hlen := hleaf.lt
  obtain ⟨s₁, hrun₁, hready₁, hcursor₁⟩ := hs.ready.leaf hc hcur hleaf
  have htame₁ := brings_leaf hc hleaf hW _ _ _ hrun₁.runs hs.tame
  have hjs : ∀ j ∈ js, s₁.cursor ≤ j ∧ IsLeaf xs j := by
    intro j hj
    have := hlt j hj
    exact ⟨by omega, (hidx j (mem_cons_of_mem i hj)).2⟩
  obtain ⟨b, s₂, hrun₂, hready₂, hle₂, -, hbound₂⟩ :=
    hf s₁ ⟨hready₁, htame₁⟩ ⟨hcursor₁, hlen⟩ hjs
  refine ⟨b, s₂, hrun₁.bind hrun₂, hready₂, by omega, fun _ => by omega, ?_⟩
  intro j _ hall
  refine hbound₂ j ?_ fun i hi => hall i (mem_cons_of_mem _ hi)
  have := hall i mem_cons_self
  omega

/-- `role` lands right behind the leaf that was visited last. -/
theorem role_bind {f : Unit → Emit β} (hc : Reading c xs)
    (hf : Steps c xs False (After xs i) js (f ())) :
    Steps c xs False (After xs i) js (role r >>= f) := by
  intro s hs hA hidx
  obtain ⟨hcursor, hlen⟩ := hA
  have hoffset : Goes c offset s (Lexer.start xs (i + 1)) s := by
    rw [← hcursor]
    exact runs_offset hc (by omega)
  have hpush : Pushes c s { s with
      items := s.items.push (.mark (.role r) (Lexer.start xs (i + 1)) (s.unbreakable == 0)) } 0 [] :=
    .push_mark rfl rfl
  have htame := hs.tame.push (i := .mark (.role r) (Lexer.start xs (i + 1)) (s.unbreakable == 0))
    rfl fun _ => by omega
  obtain ⟨b, s₂, hrun₂, hrest⟩ := hf _ ⟨hs.ready.pushes hpush, htame⟩ ⟨hcursor, hlen⟩ hidx
  exact ⟨b, s₂, Goes.bind (hoffset.bind fun _ => rfl) hrun₂, hrest⟩

/-- `role` with a gap that is left open lands behind a leaf. -/
theorem role_past {f : Unit → Emit β} (hA : ∀ k, A k → Past k)
    (hf : Steps c xs W A js (f ())) : Steps c xs W A js (role r >>= f) :=
  emits_bind (emits_mark rfl) (fun _ _ _ hrun hs htame => hrun.tame_mark htame rfl fun _ => hA _ hs)
    fun _ => hf

/-- A role that leads is queued behind a leaf. -/
theorem lead_past {f : Unit → Emit β} (hA : ∀ k, A k → Past k)
    (hf : Steps c xs W A js (f ())) : Steps c xs W A js (lead r >>= f) :=
  emits_bind (emits_queue rfl) (fun _ _ _ hrun hs htame => hrun.tame_queue htame rfl
    (fun _ _ => hA _ hs) nofun id) fun _ => hf

/-- A role that leaves its gap open, under a condition. -/
theorem role_if {f : Emit β} (hA : ∀ k, A k → Past k)
    (hf : Steps c xs W A js f) :
    Steps c xs W A js (if b then role r >>= fun _ => f else f) :=
  .ite (role_past hA hf) hf

/-- A role that leads, under a condition. -/
theorem lead_if {f : Emit β} (hA : b = true → ∀ k, A k → Past k)
    (hf : Steps c xs W A js f) :
    Steps c xs W A js (if b then lead r >>= fun _ => f else f) := by
  split
  · next hb => exact lead_past (hA hb) hf
  · exact hf

/-- A role that leaves its gap open lands behind what was visited. -/
theorem bind_role (hm : Steps c xs W A is m) (hne : is ≠ [] ∨ ∀ k, A k → Past k)
    : Steps c xs W A is (m >>= fun _ => role r) := by
  have hrole : Steps c xs False Past [] (role r >>= Pure.pure) :=
    role_past (fun _ => id) pure
  rw [bind_pure] at hrole
  have := hm.bind_past hne (fun _ => hrole) (by simp)
  rwa [append_nil] at this

/-- `before` queues a role for the next leaf. -/
theorem before_bind {f : Unit → Emit β} (hW : (ItemKind.role r).widens = true → W) (hV : V → W)
    (hf : Steps c xs W A js (f ())) : Steps c xs V A js (before r >>= f) := by
  intro s hs hA hidx
  have hready : Ready c xs
      { s with pending := s.pending ++ [⟨.role r, false, s.unbreakable == 0⟩] } := by
    refine ⟨hs.ready.cursor_le, hs.ready.covers, hs.ready.firm, ?_⟩
    exact forall_mem_append.mpr ⟨hs.ready.pending, forall_mem_singleton.mpr rfl⟩
  have htame := hs.tame.queue (p := ⟨.role r, false, s.unbreakable == 0⟩) rfl nofun (fun _ => hW) hV
  obtain ⟨b, s', hrun, hrest⟩ := hf _ ⟨hready, htame⟩ hA hidx
  exact ⟨b, s', Goes.bind (fun _ => rfl) hrun, hrest⟩

theorem before_open {f : Unit → Emit β} (hf : Steps c xs True A js (f ())) :
    Steps c xs V A js (before r >>= f) :=
  before_bind (fun _ => trivial) (fun _ => trivial) hf

/-- `before` queues a role for a leaf, which is visited next. -/
theorem before_leaf {f : Unit → Emit β} (hc : Reading c xs) (hr : Ahead c i r)
    (hV : V → (c.token i).kind ≠ .openTagWithEcho)
    (hf : Steps c xs False (After xs i) js (f ())) (hlt : ∀ j ∈ js, i < j) :
    Steps c xs V A (i :: js) (before r >>= fun _ => leaf i >>= f) :=
  before_bind hr hV (leaf_bind hc id hf hlt)

end Steps

/-! ## Leaves -/

section Leaves

variable {V W : Prop} {A : Nat → Prop} {c : Context} {xs : List Lexeme} {i : Nat} {r r' : Role}

/-- Any role may stand `Ahead` of another token than the tag that prints. -/
theorem ahead_of_ne (hne : (c.token i).kind ≠ .openTagWithEcho) : Ahead c i r := fun _ => hne

variable {k : TokenKind} {paren : ParenKind}

section

variable (hc : Reading c xs)
include hc

theorem steps_leaf (hW : W → (c.token i).kind ≠ .openTagWithEcho) :
    Steps c xs W A [i] (leaf i) := by
  have hbind : Steps c xs W A [i] (leaf i >>= pure) := .leaf_bind hc hW .pure (by simp)
  rwa [bind_pure] at hbind

theorem visits_leaf : Visits c xs [i] (leaf i) :=
  steps_leaf hc False.elim

theorem steps_role :
    Steps c xs False (After xs i) [] (role r) := by
  have hbind : Steps c xs False (After xs i) [] (role r >>= pure) :=
    .role_bind hc .pure
  rwa [bind_pure] at hbind

end

/-- `role` lands behind a leaf. -/
theorem steps_role_past (hA : ∀ k, A k → Past k) :
    Steps c xs False A [] (role r) := by
  have hbind : Steps c xs False A [] (role r >>= pure) := .role_past hA .pure
  rwa [bind_pure] at hbind

section

variable (hc : Reading c xs)
include hc

theorem visits_leafThen : Visits c xs [i] (leafThen i r) :=
  .leaf_bind hc False.elim (steps_role hc) (by simp)

theorem steps_thenLeaf (hr : Ahead c i r)
    (hV : V → (c.token i).kind ≠ .openTagWithEcho) :
    Steps c xs V A [i] (thenLeaf r i) := .before_bind hr hV (steps_leaf hc id)

theorem visits_thenLeaf (hr : Ahead c i r) :
    Visits c xs [i] (thenLeaf r i) := steps_thenLeaf hc hr False.elim

theorem steps_between (hr : Ahead c i r)
    (hV : V → (c.token i).kind ≠ .openTagWithEcho) :
    Steps c xs V A [i] (between r i r') :=
  .before_leaf hc hr hV (steps_role hc) (by simp)

theorem visits_between (hr : Ahead c i r) :
    Visits c xs [i] (between r i r') := steps_between hc hr False.elim

theorem visits_semi (hk : (c.token i).kind = .semiColon) : Visits c xs [i] (semi i) :=
  visits_between hc (ahead_of_ne (by rw [hk]; decide))

theorem visits_comma (hk : (c.token i).kind = .comma) : Visits c xs [i] (comma i) :=
  visits_between hc (ahead_of_ne (by rw [hk]; decide))

theorem steps_op {op : OpKind} (hne : (c.token i).kind ≠ .openTagWithEcho) :
    Steps c xs V A [i] (Annotate.op i op) :=
  steps_between hc (ahead_of_ne hne) fun _ => hne

theorem visits_op {op : OpKind} (hne : (c.token i).kind ≠ .openTagWithEcho) :
    Visits c xs [i] (Annotate.op i op) := steps_op hc hne

theorem visits_keyword : Visits c xs [i] (keyword i) := by
  refine .leaf_bind hc False.elim ?_ (by simp)
  refine .emit_bind marks_peekSignificant fun kind => ?_
  split
  · exact .ite (steps_role_past After.past) .pure
  · exact .pure

theorem visits_walkLeaf : Visits c xs [i] (walkLeaf i) := by
  refine .kindAt_bind ?_
  split
  · next hk => exact visits_semi hc hk
  · next hk => exact visits_comma hc hk
  · next hk => exact visits_op hc (by rw [hk]; decide)
  · next hk => exact visits_op hc (by rw [hk]; decide)
  · next hk => exact visits_op hc (by rw [hk]; decide)
  · exact .ite (visits_keyword hc) (visits_leaf hc)

end

theorem ne_echo_of_isOpenSign (h : isOpenSign k = true) : k ≠ .openTagWithEcho := by
  rintro rfl
  cases h

theorem ne_echo_of_isCloseSign (h : isCloseSign k = true) : k ≠ .openTagWithEcho := by
  rintro rfl
  cases h

section

variable (hc : Reading c xs)
include hc

theorem steps_openParen (hk : isOpenSign (c.token i).kind = true) :
    Steps c xs V A [i] (openParen paren i) :=
  steps_between hc (ahead_of_ne (ne_echo_of_isOpenSign hk)) fun _ => ne_echo_of_isOpenSign hk

theorem visits_openParen (hk : isOpenSign (c.token i).kind = true) :
    Visits c xs [i] (openParen paren i) := steps_openParen hc hk

theorem steps_closeParen (hk : isCloseSign (c.token i).kind = true) :
    Steps c xs V A [i] (closeParen paren i) :=
  steps_thenLeaf hc (ahead_of_ne (ne_echo_of_isCloseSign hk)) fun _ => ne_echo_of_isCloseSign hk

theorem visits_closeParen (hk : isCloseSign (c.token i).kind = true) :
    Visits c xs [i] (closeParen paren i) := steps_closeParen hc hk

end

end Leaves

end CodeLayout.Annotate
