import CodeLayout.Proofs.Annotate.Take

/-!
# What a layout is made of

Some marks come in pairs: what is indented is taken back, an anchor ends, a stretch that may not be
broken ends, and what stands behind an opening brace stands before a closing one.  The opening mark of
a pair is emitted at once; the closing mark is emitted, or queued for the next leaf.

A `Path` takes one state to another by moves: neutral items are emitted and queued, queued marks are
flushed, and pairs are opened and closed.  It lists the pairs that are open before and after it.  What
the visits of children and the alignment groups do is left to a relation `R`, a parameter.

`Lays c R is ps qs m` says that the step `m` is a path, and that it takes the tokens `is`, if they come
next.  It is a statement about steps that answer; that they do is known from their visits in order.  A
step may also take only a first part of the tokens, and tell by its answer which ones are left
(`Laying`).  The layout of every construct that makes no alignment group takes all its leaves, on a
path on which all pairs are closed again (`lays_visitNode`).
-/

namespace CodeLayout

open List
open CodeLayout.Tree (leavesAll leavesAll_append leavesAll_cons leavesAll_nil leaves_leaf)

/-- The widths by which a style indents. -/
def Style.indentWidths (style : Style) : List Nat :=
  [style.indent.indentSize, style.indent.continuationSize, style.indent.arrayItemSize]

section

variable {style : Style}

theorem Style.indentSize_mem : style.indent.indentSize ∈ style.indentWidths := mem_cons_self

theorem Style.continuationSize_mem : style.indent.continuationSize ∈ style.indentWidths :=
  mem_cons_of_mem _ mem_cons_self

theorem Annotate.ListShape.indent_mem (kind : ListKind) (paren : ParenKind) :
    (ListShape.of style kind paren).indent ∈ style.indentWidths := by
  cases kind <;> simp [ListShape.of, Style.indentWidths]

end

/-- Marks that come in pairs. -/
inductive Pair (style : Style) where
  | indent (width : Nat) (hwidth : width ∈ style.indentWidths)
  | anchor
  | unbreakable
  | brace (construct : Construct)

namespace Pair

variable {style : Style}

def opening : Pair style → ItemKind
  | indent width _ => .indent (Word.toInt width)
  | anchor => .anchor
  | unbreakable => .unbreakableStart
  | brace construct => .role (.afterLeftBrace construct)

def closing : Pair style → ItemKind
  | indent width _ => .indent (-Word.toInt width)
  | anchor => .anchorEnd
  | unbreakable => .unbreakableEnd
  | brace construct => .role (.beforeRightBrace construct)

end Pair

/-- Items that open nothing, close nothing and line nothing up. -/
def ItemKind.isNeutral : ItemKind → Bool
  | indent _ | anchor | anchorEnd | unbreakableStart | unbreakableEnd | alignStart _ | align _
  | role (.afterLeftBrace _) | role (.beforeRightBrace _) => false
  | _ => true

/-- Marks that line something up. -/
def ItemKind.isAlign : ItemKind → Bool
  | alignStart _ | align _ => true
  | _ => false

namespace Annotate

/-- The kinds of the items so far. -/
def State.kinds (s : State) : List ItemKind := s.items.toList.map Item.kind

/-- What one step does to the items and to the queue, and to the pairs that are open. -/
inductive Move {style : Style} (s s' : State) : List (Pair style) → List (Pair style) → Prop
  | keep {ps} (hkinds : s'.kinds = s.kinds) (hpending : s'.pending = s.pending) : Move s s' ps ps
  | emit {ps} {kind : ItemKind} (hkind : kind.isNeutral = true) (hkinds : s'.kinds = s.kinds ++ [kind])
      (hpending : s'.pending = s.pending) : Move s s' ps ps
  | queue {ps} {p : Pending} (hp : p.kind.isNeutral = true) (hkinds : s'.kinds = s.kinds)
      (hpending : s'.pending = s.pending ++ [p]) : Move s s' ps ps
  | flush {ps} (lead : Bool)
      (hkinds : s'.kinds = s.kinds ++ (s.pending.filter (·.lead == lead)).map Pending.kind)
      (hpending : s'.pending = s.pending.filter (·.lead != lead)) : Move s s' ps ps
  | start {ps} (p : Pair style) (hkinds : s'.kinds = s.kinds ++ [p.opening])
      (hpending : s'.pending = s.pending) : Move s s' ps (p :: ps)
  | stop {ps} (p : Pair style) (hkinds : s'.kinds = s.kinds ++ [p.closing])
      (hpending : s'.pending = s.pending) : Move s s' (p :: ps) ps
  | stopLater {ps} (p : Pair style) (b : Bool) (hkinds : s'.kinds = s.kinds)
      (hpending : s'.pending = s.pending ++ [⟨p.closing, false, b⟩]) : Move s s' (p :: ps) ps

/-- Moves one after the other, with calls in between that `R` speaks of. -/
inductive Path {style : Style} (R : State → State → Prop) :
    List (Pair style) → State → List (Pair style) → State → Prop
  | refl {ps s} : Path R ps s ps s
  | move {ps qs s s'} (hmove : Move s s' ps qs) (hgroups : s'.groups = s.groups)
      (hmember : s'.member = s.member) : Path R ps s qs s'
  | call {ps s s'} (h : R s s') : Path R ps s ps s'
  | swap {p q ps qs s s'} (h : Path R (q :: p :: ps) s qs s') : Path R (p :: q :: ps) s qs s'
  | trans {ps qs rs s₁ s₂ s₃} (h : Path R ps s₁ qs s₂) (h' : Path R qs s₂ rs s₃) :
      Path R ps s₁ rs s₃

/-- The relation holds between the states before and after the step. -/
def Relates {α : Type} (c : Context) (R : State → State → Prop) (m : Emit α) : Prop :=
  ∀ s a s', Runs c m s a s' → R s s'

/-- The step is a path, with some pairs open before it and some after it, and takes a first part of
the tokens, up to those that it answers. -/
def Laying {α : Type} (c : Context) (R : State → State → Prop) (is : List Nat) (left : α → List Nat)
    (ps qs : List (Pair c.style)) (m : Emit α) : Prop :=
  ∀ s a s', Runs c m s a s' → Path R ps s qs s' ∧ Taken c is (left a) s s'

/-- The step is a path and takes the tokens. -/
abbrev Lays {α : Type} (c : Context) (R : State → State → Prop) (is : List Nat)
    (ps qs : List (Pair c.style)) (m : Emit α) : Prop := Laying c R is (fun _ => []) ps qs m

/-! ## Steps that only look -/

section Looking

variable {c : Context} {t u : Tree} {ts : List Tree} {i : Nat}

theorem looks_leafKind? : Looks c (leafKind? t) := .of_runs fun s => ⟨_, runs_leafKind? c t s⟩

theorem looks_findLeaf? {kind : TokenKind} : Looks c (findLeaf? t kind) := .of_runs fun _ => ⟨_, rfl⟩

variable {test : TokenKind → Bool}

theorem looks_findSign? : Looks c (findSign? test ts) :=
  .of_runs fun _ => ⟨_, rfl⟩

theorem looks_signs {kinds : List TokenKind} : Looks c (signs kinds ts) := .of_runs fun _ => ⟨_, rfl⟩

theorem looks_textOf : Looks c (textOf t) := by
  refine .bind looks_read fun _ => ?_
  split
  · exact .pure
  · exact .pure

theorem looks_isMultiline : Looks c (isMultiline t) := .bind looks_textOf fun _ => .pure

theorem looks_breaksAfter : Looks c (breaksAfter i) := .of_runs fun _ => ⟨_, rfl⟩

theorem looks_breaksBefore : Looks c (breaksBefore i) := .of_runs fun _ => ⟨_, rfl⟩

theorem looks_breaksAround {is : List Nat} : Looks c (breaksAround is) :=
  .anyM fun _ => .bind looks_breaksBefore fun _ => .bind looks_breaksAfter fun _ => .pure

theorem looks_listHasNewline {j : Nat} : Looks c (listHasNewline i ts j) := by
  refine .bind looks_breaksAfter fun _ => .ite .pure ?_
  refine .bind looks_breaksBefore fun _ => .ite .pure ?_
  exact .bind looks_signs fun _ => looks_breaksAround

theorem looks_separated : Looks c (separated t u) := by
  refine .bind looks_read fun _ => ?_
  split
  · exact .pure
  · exact .pure

theorem looks_hasDocComment : Looks c (hasDocComment t) := by
  refine .bind looks_read fun _ => ?_
  split
  · exact .pure
  · exact .pure

theorem looks_useType? : Looks c (useType? t) := by
  unfold useType?
  split
  · refine .bind looks_leafKind? fun _ => ?_
    split
    · exact .pure
    · exact .pure
    · exact .pure
  · exact .pure

theorem looks_armWidth? : Looks c (armWidth? t) := by
  refine .bind looks_read fun _ => .bind looks_findLeaf? fun _ => ?_
  split
  · exact .pure
  · exact .pure

end Looking

/-! ## Trivia in front of a leaf -/

/-- A relation that steps in a row keep, and that holds across what trivia emits. -/
structure Chains (c : Context) (P : State → State → Prop) : Prop where
  refl : ∀ s, P s s
  trans : ∀ {s₁ s₂ s₃}, P s₁ s₂ → P s₂ s₃ → P s₁ s₃
  push : ∀ {i : Item}, i.kind.isNeutral = true → Relates c P (push i)
  flushLead : ∀ {seen : Seen} {o : Nat}, Relates c P (flushLead seen o)

theorem isNeutral_commentKind (kind : TokenKind) : (commentKind kind).isNeutral = true := by
  unfold commentKind
  split <;> rfl

theorem Relates.ite {α : Type} {c : Context} {P : State → State → Prop} {m m' : Emit α} {b : Prop}
    [Decidable b] (hm : Relates c P m) (hm' : Relates c P m') : Relates c P (if b then m else m') := by
  split
  · exact hm
  · exact hm'

namespace Chains

variable {α β : Type} {c : Context} {P : State → State → Prop} {m : Emit α} {f : α → Emit β} {t : Token}
  (hP : Chains c P)
include hP

theorem look (hm : Looks c m) : Relates c P m := by
  intro s a s' hrun
  rw [hm s a s' hrun]
  exact hP.refl s

theorem bind (hm : Relates c P m) (hf : ∀ a, Relates c P (f a)) : Relates c P (m >>= f) := by
  intro s b s₂ hrun
  obtain ⟨a, s₁, hrun₁, hrun₂⟩ := hrun.of_bind
  exact hP.trans (hm s a s₁ hrun₁) (hf a s₁ b s₂ hrun₂)

theorem pushToken {kind : ItemKind} (hkind : kind.isNeutral = true) :
    Relates c P (pushToken kind t) := hP.bind (hP.look looks_breakable) fun _ => hP.push hkind

theorem triviaToken {seen : Seen} : Relates c P (triviaToken seen t) := by
  have hend {kind : ItemKind} {seen' : Seen} (hkind : kind.isNeutral = true) :
      Relates c P (do Annotate.pushToken kind t; return seen') :=
    hP.bind (hP.pushToken hkind) fun _ => hP.look .pure
  have hcomment {kind : ItemKind} {seen' : Seen} (hkind : kind.isNeutral = true) :
      Relates c P (do
        if seen.lineStarted then Annotate.flushLead seen t.start
        Annotate.pushToken kind t
        return seen') := .ite (hP.bind hP.flushLead fun _ => hend hkind) (hend hkind)
  unfold Annotate.triviaToken
  split
  · refine hP.bind (hP.look looks_read) fun _ => hend ?_
    split <;> rfl
  · exact hcomment (isNeutral_commentKind _)
  · exact hcomment (isNeutral_commentKind _)
  · exact hcomment (isNeutral_commentKind _)
  · refine hP.bind hP.flushLead fun _ => hP.bind (hP.look looks_breakable) fun _ => ?_
    exact hP.bind (hP.push rfl) fun _ => hend rfl
  · refine hP.bind (hP.pushToken rfl) fun _ => hP.bind (hP.look looks_breakable) fun _ => ?_
    exact hP.bind (hP.push rfl) fun _ => hP.look .pure
  · exact hend rfl
  · exact hP.look .pure
  · exact hend rfl

theorem foldlM {ts : List Token} {seen : Seen} :
    Relates c P (ts.foldlM Annotate.triviaToken seen) := by
  induction ts generalizing seen with
  | nil => exact hP.look .pure
  | cons t ts ih =>
    rw [foldlM_cons]
    exact hP.bind hP.triviaToken fun _ => ih

theorem forM {as : List α} {f : α → Emit Unit} (hf : ∀ a ∈ as, Relates c P (f a)) :
    Relates c P (as.forM f) := by
  induction as with
  | nil => exact hP.look .pure
  | cons a as ih =>
    rw [List.forM]
    exact hP.bind (hf a mem_cons_self) fun _ => ih fun b hb => hf b (mem_cons_of_mem a hb)

end Chains

theorem State.kinds_push (s : State) (i : Item) :
    State.kinds { s with items := s.items.push i } = s.kinds ++ [i.kind] := by
  simp [State.kinds]

section Leaf

variable {c : Context} {R : State → State → Prop} {ps : List (Pair c.style)} {i : Nat} {s s' : State}

theorem path_flush {lead : Bool} {o : Nat} :
    Relates c (fun s s' => Path R ps s ps s') (flush lead o) := by
  intro s a s' hrun
  cases hrun
  refine .move (.flush lead ?_ ?_) rfl rfl
  · simp [State.kinds, partition_eq_filter_filter, Item.mark, Function.comp_def]
  · exact congrArg Prod.snd partition_eq_filter_filter

theorem chains_path : Chains c fun s s' => Path R ps s ps s' where
  refl _ := .refl
  trans h h' := .trans h h'
  push hi := by
    intro s a s' hrun
    cases hrun
    exact .move (.emit hi (State.kinds_push s _) rfl) rfl rfl
  flushLead := .ite path_flush fun s a s' hrun => Looks.pure s a s' hrun ▸ .refl

theorem path_trivia (h : Runs c (trivia i) s () s') : Path R ps s ps s' := by
  obtain ⟨ts, s₁, htake, h⟩ := h.of_bind
  obtain ⟨-, -, rfl⟩ := htake.takeUntil
  have hrest : Relates c (fun s s' => Path R ps s ps s') (do
      let seen ← ts.foldlM triviaToken {}
      let here ← offset
      flushLead seen here
      flush false here) := by
    refine chains_path.bind chains_path.foldlM fun _ => ?_
    refine chains_path.bind (chains_path.look looks_offset) fun _ => ?_
    exact chains_path.bind chains_path.flushLead fun _ => path_flush
  refine .trans ?_ (hrest _ _ _ h)
  exact .move (.keep rfl rfl) rfl rfl

/-- Behind `trivia` before an index, nothing waits but what leads. -/
theorem Runs.lead_of_trivia (h : Runs c (trivia i) s () s') : ∀ p ∈ s'.pending, p.lead = true := by
  obtain ⟨ts, s₁, -, h⟩ := h.of_bind
  obtain ⟨seen, s₂, -, h⟩ := h.of_bind
  obtain ⟨here, s₃, -, h⟩ := h.of_bind
  obtain ⟨⟨⟩, s₄, -, h⟩ := h.of_bind
  cases h
  simp [partition_eq_filter_filter]

theorem path_mark {kind : ItemKind} (hkind : kind.isNeutral = true) :
    Relates c (fun s s' => Path R ps s ps s') (mark kind) := by
  refine chains_path.bind (chains_path.look looks_offset) fun _ => ?_
  exact chains_path.bind (chains_path.look looks_breakable) fun _ => chains_path.push hkind

theorem path_castPieces {t : Token} : Relates c (fun s s' => Path R ps s ps s') (castPieces t) := by
  have hP : Chains c fun s s' => Path R ps s ps s' := chains_path
  have hoptional {b : Prop} [Decidable b] {m : Emit Unit} (j : Item) (hj : j.kind.isNeutral = true)
      (hm : Relates c (fun s s' => Path R ps s ps s') m) :
      Relates c (fun s s' => Path R ps s ps s') (if b then do push j; m else m) :=
    .ite (hP.bind (hP.push hj) fun _ => hm) hm
  refine hP.bind (hP.look looks_read) fun _ => hP.bind (hP.look looks_breakable) fun _ => ?_
  refine hP.bind (hP.push rfl) fun _ => hP.bind (hP.push rfl) fun _ => ?_
  refine hoptional _ rfl (hP.bind (hP.push rfl) fun _ => ?_)
  refine hoptional _ rfl (hP.bind (hP.push rfl) fun _ => ?_)
  exact hP.bind (hP.push rfl) fun _ => path_mark rfl

theorem path_leaf (h : Runs c (leaf i) s () s') : Path R ps s ps s' := by
  obtain ⟨⟨⟩, s₁, htrivia, h⟩ := h.of_bind
  obtain ⟨t, s₂, htake, h⟩ := h.of_bind
  obtain ⟨-, rfl⟩ := htake.take
  have hmoved : Path R ps s₁ ps { s₁ with cursor := i + 1 } := .move (.keep rfl rfl) rfl rfl
  have hopen : Relates c (fun s s' => Path R ps s ps s') (do
      pushToken .openTag t
      role .afterOpenTag) := chains_path.bind (chains_path.pushToken rfl) fun _ => path_mark rfl
  refine .trans (path_trivia htrivia) (.trans hmoved ?_)
  split at h
  · exact path_castPieces _ _ _ h
  · exact chains_path.pushToken rfl _ _ _ h
  · exact hopen _ _ _ h
  · exact chains_path.pushToken rfl _ _ _ h

end Leaf

/-! ## Paths in a row -/

/-- What `Emits` nothing but marks may come before the tokens are `Taken`. -/
theorem Relates.taken_after {α β : Type} {c : Context} {is js : List Nat} {m : Emit α} {f : α → Emit β}
    (hm : Emits c 0 [] m) (hf : ∀ a, Relates c (Taken c is js) (f a)) :
    Relates c (Taken c is js) (m >>= f) := by
  intro s b s₂ hrun
  obtain ⟨a, s₁, hrun₁, hrun₂⟩ := hrun.of_bind
  exact (Taken.of_emits hm hrun₁).trans (hf a s₁ b s₂ hrun₂)

namespace Laying

variable {α β : Type} {c : Context} {R : State → State → Prop} {is js : List Nat}
  {left : α → List Nat} {left' : β → List Nat} {ps qs rs : List (Pair c.style)} {m m' : Emit α} {f : α → Emit β}

theorem look (hm : Looks c m) : Laying c R is (fun _ => is) ps ps m := by
  intro s a s' hrun
  rw [hm s a s' hrun]
  exact ⟨.refl, .refl⟩

variable {a : α} {b : Bool} {as : List α}

theorem pure (h : left a = is) : Laying c R is left ps ps (pure a) := by
  intro s a' s' hrun
  cases hrun
  exact ⟨.refl, h ▸ .refl⟩

theorem call (hm : Relates c R m) (htaken : Relates c (Taken c is []) m) : Lays c R is ps ps m :=
  fun s a s' hrun => ⟨.call (hm s a s' hrun), htaken s a s' hrun⟩

/-- What `Emits` nothing but marks takes nothing. -/
theorem emit (hm : Relates c (fun s s' => Path R ps s qs s') m) (hemits : Emits c 0 [] m) :
    Laying c R is (fun _ => is) ps qs m :=
  fun s a s' hrun => ⟨hm s a s' hrun, .of_emits hemits hrun⟩

theorem emitCall (hm : Relates c R m) (hemits : Emits c 0 [] m) :
    Laying c R is (fun _ => is) ps ps m := emit (fun s a s' hrun => .call (hm s a s' hrun)) hemits

theorem bind (hm : Laying c R is left ps qs m) (hf : ∀ a, Laying c R (left a) left' qs rs (f a)) :
    Laying c R is left' ps rs (m >>= f) := by
  intro s b s₂ hrun
  obtain ⟨a, s₁, hrun₁, hrun₂⟩ := hrun.of_bind
  obtain ⟨hpath₁, htaken₁⟩ := hm s a s₁ hrun₁
  obtain ⟨hpath₂, htaken₂⟩ := hf a s₁ b s₂ hrun₂
  exact ⟨hpath₁.trans hpath₂, htaken₁.trans htaken₂⟩

/-- `Laying` leaves tokens behind those that are taken. -/
theorem frame (hm : Laying c R is left ps qs m) :
    Laying c R (is ++ js) (fun a => left a ++ js) ps qs m := by
  intro s a s' hrun
  obtain ⟨hpath, htaken⟩ := hm s a s' hrun
  exact ⟨hpath, htaken.frame⟩

/-- `Laying` for one step after the other, with the tokens of both. -/
theorem append (hm : Lays c R is ps qs m) (hf : ∀ a, Laying c R js left' qs rs (f a)) :
    Laying c R (is ++ js) left' ps rs (m >>= f) := hm.frame.bind hf

theorem swap {p q : Pair c.style} (hm : Laying c R is left (q :: p :: ps) qs m) :
    Laying c R is left (p :: q :: ps) qs m := by
  intro s a s' hrun
  obtain ⟨hpath, htaken⟩ := hm s a s' hrun
  exact ⟨.swap hpath, htaken⟩

/-- `Laying` where the answer of a step is known. -/
theorem bind_answer (hm : Laying c R is left ps qs m) (ha : Answers c m a)
    (hf : Laying c R (left a) left' qs rs (f a)) : Laying c R is left' ps rs (m >>= f) := by
  intro s b s₂ hrun
  obtain ⟨a', s₁, hrun₁, hrun₂⟩ := hrun.of_bind
  obtain rfl := ha s a' s₁ hrun₁
  obtain ⟨hpath₁, htaken₁⟩ := hm s a' s₁ hrun₁
  obtain ⟨hpath₂, htaken₂⟩ := hf s₁ b s₂ hrun₂
  exact ⟨hpath₁.trans hpath₂, htaken₁.trans htaken₂⟩

theorem look_bind (hm : Looks c m) (hf : ∀ a, Laying c R is left' ps qs (f a)) :
    Laying c R is left' ps qs (m >>= f) := (look hm).bind hf

/-- `Laying` where the answer of a step that only looks is known. -/
theorem known (hm : ∀ s, Runs c m s a s) (hf : Laying c R is left' ps qs (f a)) :
    Laying c R is left' ps qs (m >>= f) := by
  intro s b s₂ hrun
  obtain ⟨a', s₁, hrun₁, hrun₂⟩ := hrun.of_bind
  obtain ⟨rfl, rfl⟩ := (hm s).unique hrun₁
  exact hf s₁ b s₂ hrun₂

theorem read_bind {f : Context → Emit β} (hf : Laying c R is left' ps qs (f c)) :
    Laying c R is left' ps qs (read >>= f) := known (fun _ => rfl) hf

theorem kindAt_bind {i : Nat} {f : TokenKind → Emit β}
    (hf : Laying c R is left' ps qs (f (c.token i).kind)) :
    Laying c R is left' ps qs (kindAt i >>= f) := known (fun _ => rfl) hf

theorem ite {b : Prop} [Decidable b] (hm : Laying c R is left ps qs m)
    (hm' : Laying c R is left ps qs m') : Laying c R is left ps qs (if b then m else m') := by
  split
  · exact hm
  · exact hm'

/-- `Laying` where one of two steps that only look comes first. -/
theorem either (hm : Looks c m) (hm' : Looks c m') (hf : ∀ a, Laying c R is left' ps qs (f a)) :
    Laying c R is left' ps qs (if b then m >>= f else m' >>= f) :=
  .ite (.look_bind hm hf) (.look_bind hm' hf)

/-- `Laying` where a step that takes, opens and closes nothing comes first under a condition. -/
theorem optional {m : Emit PUnit} {f : Emit β} (hm : Laying c R is (fun _ => is) ps ps m)
    (hf : Laying c R is left' ps qs f) :
    Laying c R is left' ps qs (if b then m >>= fun _ => f else f) := .ite (hm.bind fun _ => hf) hf

/-- `Relates` what follows from the `Path` of a step. -/
theorem relates (hm : Laying c R is left ps qs m) {R' : State → State → Prop}
    (hR : ∀ s s', Path R ps s qs s' → R' s s') : Relates c R' m :=
  fun s a s' hrun => hR s s' (hm s a s' hrun).1

/-! ### Rows of trees -/

variable {t : Tree} {ts us : List Tree} {i w : Nat}

/-- The first tree of a row is taken, then the rest. -/
theorem cons (hm : Lays c R t.leaves ps qs m) (hf : ∀ a, Laying c R (leavesAll ts) left' qs rs (f a)) :
    Laying c R (leavesAll (t :: ts)) left' ps rs (m >>= f) := by
  rw [leavesAll_cons]
  exact hm.append hf

/-- `Laying` for a first part of a row, then the rest. -/
theorem split (hm : Lays c R (leavesAll ts) ps qs m)
    (hf : ∀ a, Laying c R (leavesAll us) left' qs rs (f a)) :
    Laying c R (leavesAll (ts ++ us)) left' ps rs (m >>= f) := by
  rw [leavesAll_append]
  exact hm.append hf

theorem at_leaf (hm : Laying c R [i] left ps qs m) : Laying c R (Tree.leaves (.leaf i w)) left ps qs m := by
  rwa [leaves_leaf]

theorem at_sign (ht : t.leafIndex? = some i) (hm : Laying c R [i] left ps qs m) :
    Laying c R t.leaves left ps qs m := by rwa [leaves_of_leafIndex? ht]

/-- `Laying` for the first leaf of a row, then the rest. -/
theorem token (hm : Lays c R [i] ps qs m) (hf : ∀ a, Laying c R (leavesAll ts) left' qs rs (f a)) :
    Laying c R (leavesAll (.leaf i w :: ts)) left' ps rs (m >>= f) := .cons (.at_leaf hm) hf

/-- `Laying` for the only tree of a row. -/
theorem one (hm : Laying c R t.leaves left ps qs m) : Laying c R (leavesAll [t]) left ps qs m := by
  rwa [leavesAll_cons, leavesAll_nil, append_nil]

theorem forM {f : Tree → Emit Unit} (hf : ∀ t ∈ ts, Lays c R t.leaves ps ps (f t)) :
    Lays c R (leavesAll ts) ps ps (ts.forM f) := by
  induction ts with
  | nil => exact .pure rfl
  | cons t ts ih =>
    rw [List.forM]
    exact .cons (hf t mem_cons_self) fun _ => ih fun u hu => hf u (mem_cons_of_mem t hu)

theorem forM_zipIdx {f : Tree × Nat → Emit Unit} (hf : ∀ t ∈ ts, ∀ k, Lays c R t.leaves ps ps (f (t, k)))
    (k : Nat) : Lays c R (leavesAll ts) ps ps ((ts.zipIdx k).forM f) := by
  induction ts generalizing k with
  | nil => exact .pure rfl
  | cons t ts ih =>
    rw [zipIdx_cons, List.forM]
    refine .cons (hf t mem_cons_self k) fun _ => ?_
    exact ih (fun u hu => hf u (mem_cons_of_mem t hu)) (k + 1)

end Laying

/-- The step is a path and takes the tokens, if it answers so; else it takes none. -/
abbrev LaysIf (c : Context) (R : State → State → Prop) (is : List Nat) (ps : List (Pair c.style))
    (m : Emit Bool) : Prop := Laying c R is (fun done => if done then [] else is) ps ps m

namespace LaysIf

variable {c : Context} {R : State → State → Prop} {is : List Nat} {ps : List (Pair c.style)} {t : Tree}
  {ts : List Tree}

theorem refused : LaysIf c R is ps (pure false) := .pure rfl

theorem done {m : Emit Unit} (hm : Lays c R is ps ps m) : LaysIf c R is ps (do m; return true) :=
  hm.bind fun _ => .pure rfl

/-- Whether the first tree of a row was taken decides how to go on. -/
theorem cons {m : Emit Bool} {k k' : Emit Unit} (hm : LaysIf c R t.leaves ps m)
    (hdone : Lays c R (leavesAll ts) ps ps k') (hnot : Lays c R (leavesAll (t :: ts)) ps ps k) :
    Lays c R (leavesAll (t :: ts)) ps ps (m >>= fun done => if !done then k else k') := by
  rw [leavesAll_cons] at hnot ⊢
  refine hm.frame.bind fun done => ?_
  cases done with
  | true => exact hdone
  | false => exact hnot

end LaysIf

/-! ## Marks -/

section Marks

variable {c : Context} {R : State → State → Prop} {is : List Nat} {ps : List (Pair c.style)} {kind : ItemKind}
  {s s' : State} {r : Role}

theorem isMark_pair {style : Style} (p : Pair style) : p.opening.isMark = true ∧ p.closing.isMark = true := by
  cases p <;> exact ⟨rfl, rfl⟩

/-- `mark` emits a mark as an item. -/
theorem Runs.mark (h : Runs c (mark kind) s () s') :
    s'.kinds = s.kinds ++ [kind] ∧ s'.pending = s.pending ∧ s'.groups = s.groups ∧
      s'.member = s.member := by
  obtain ⟨o, s₁, ho, h⟩ := h.of_bind
  obtain ⟨b, s₂, hb, h⟩ := h.of_bind
  obtain rfl := looks_offset _ _ _ ho
  obtain rfl := looks_breakable _ _ _ hb
  cases h
  exact ⟨State.kinds_push _ _, rfl, rfl, rfl⟩

/-- `queue` puts a mark behind those that wait. -/
theorem Runs.queue {lead : Bool} (h : Runs c (queue kind lead) s () s') :
    ∃ b, s' = { s with pending := s.pending ++ [⟨kind, lead, b⟩] } := by
  cases h
  exact ⟨_, rfl⟩

/-- `Lays` for a change of what is neither an item nor in the queue. -/
theorem lays_modify {f : State → State} (hf : ∀ s, (f s).items = s.items ∧ (f s).pending = s.pending ∧
    (f s).groups = s.groups ∧ (f s).member = s.member ∧ (f s).cursor = s.cursor) :
    Laying c R is (fun _ => is) ps ps (modify f : Emit Unit) := by
  refine .emit (fun s a s' hrun => ?_) (marks_modify fun s => ?_).emits
  · cases hrun
    obtain ⟨hitems, hpending, hgroups, hmember, -⟩ := hf s
    exact .move (.keep (congrArg (·.toList.map Item.kind) hitems) hpending) hgroups hmember
  · obtain ⟨hitems, hpending, -, -, hcursor⟩ := hf s
    exact ⟨hcursor, hitems, hpending⟩

theorem lays_role (hr : (ItemKind.role r).isNeutral = true) :
    Laying c R is (fun _ => is) ps ps (role r) := .emit (path_mark hr) (emits_mark rfl)

theorem lays_start (p : Pair c.style) : Laying c R is (fun _ => is) ps (p :: ps) (mark p.opening) := by
  refine .emit (fun s a s' hrun => ?_) (emits_mark (isMark_pair p).1)
  obtain ⟨hkinds, hpending, hgroups, hmember⟩ := hrun.mark
  exact .move (.start p hkinds hpending) hgroups hmember

theorem lays_stop (p : Pair c.style) : Laying c R is (fun _ => is) (p :: ps) ps (mark p.closing) := by
  refine .emit (fun s a s' hrun => ?_) (emits_mark (isMark_pair p).2)
  obtain ⟨hkinds, hpending, hgroups, hmember⟩ := hrun.mark
  exact .move (.stop p hkinds hpending) hgroups hmember

section

variable (hr : (ItemKind.role r).isNeutral = true)
include hr

theorem lays_queueRole {lead : Bool} :
    Laying c R is (fun _ => is) ps ps (queue (.role r) lead) := by
  refine .emit (fun s a s' hrun => ?_) (emits_queue rfl)
  obtain ⟨b, rfl⟩ := hrun.queue
  exact .move (.queue (p := ⟨.role r, lead, b⟩) hr rfl rfl) rfl rfl

theorem lays_before :
    Laying c R is (fun _ => is) ps ps (before r) := lays_queueRole hr

theorem lays_lead :
    Laying c R is (fun _ => is) ps ps (lead r) := lays_queueRole hr

end

theorem lays_stopLater (p : Pair c.style) :
    Laying c R is (fun _ => is) (p :: ps) ps (queue p.closing false) := by
  refine .emit (fun s a s' hrun => ?_) (emits_queue (isMark_pair p).2)
  obtain ⟨b, rfl⟩ := hrun.queue
  exact .move (.stopLater p b rfl rfl) rfl rfl

theorem Laying.unbroken {m : Emit Unit} (hm : ∀ qs, Lays c R is qs qs m) :
    Lays c R is ps ps (unbroken m) := by
  refine .bind (lays_start .unbreakable) fun _ => ?_
  refine .bind (lays_modify fun _ => ⟨rfl, rfl, rfl, rfl, rfl⟩) fun _ => .bind (hm _) fun _ => ?_
  exact .bind (lays_modify fun _ => ⟨rfl, rfl, rfl, rfl, rfl⟩) fun _ => lays_stop .unbreakable

end Marks

/-! ## Leaves -/

section Leaves

variable {c : Context} {R : State → State → Prop} {ps : List (Pair c.style)} {i : Nat} {r r' : Role}

theorem lays_leaf : Lays c R [i] ps ps (leaf i) := fun _ _ _ hrun => ⟨path_leaf hrun, .leaf hrun⟩

section

variable (hr : (ItemKind.role r).isNeutral = true)
include hr

theorem lays_leafThen : Lays c R [i] ps ps (leafThen i r) :=
  .bind lays_leaf fun _ => lays_role hr

theorem lays_thenLeaf : Lays c R [i] ps ps (thenLeaf r i) :=
  .bind (lays_before hr) fun _ => lays_leaf

theorem lays_between
    (hr' : (ItemKind.role r').isNeutral = true) : Lays c R [i] ps ps (between r i r') :=
  .bind (lays_before hr) fun _ => lays_leafThen hr'

end

theorem lays_keyword : Lays c R [i] ps ps (keyword i) := by
  refine .bind lays_leaf fun _ => .look_bind looks_peekSignificant fun kind => ?_
  split
  · exact .ite (lays_role rfl) (.pure rfl)
  · exact .pure rfl

theorem lays_walkLeaf : Lays c R [i] ps ps (walkLeaf i) := by
  refine .kindAt_bind ?_
  split
  · exact lays_between rfl rfl
  · exact lays_between rfl rfl
  · exact lays_between rfl rfl
  · exact lays_between rfl rfl
  · exact lays_between rfl rfl
  · exact .ite lays_keyword lays_leaf

end Leaves

end Annotate

end CodeLayout
