import CodeLayout.Proofs.Annotate.Groups
import Mathlib.Algebra.GroupWithZero.Nat
import Mathlib.Algebra.Ring.Int.Defs

/-!
# Balanced marks

A `Scale` gives every kind of item a weight such that the two marks of a pair cancel out.  The level of
a state is the weight of the items so far and of the marks in the queue (`Level`).  Since whatever
waits in the queue closes something, the items alone weigh at least as much: no prefix of the items
falls below zero, at whatever time the queue is flushed.

A path raises the level by what it opens and lowers it by what it closes (`Level.path`), so that a
whole program ends at the level where it started (`annotate_balanced`).
-/

namespace CodeLayout

open List

/-- Weights of items under which the two marks of a pair cancel out. -/
structure Scale (style : Style) where
  weight : ItemKind → Int
  size : Pair style → Nat
  opening : ∀ p, weight p.opening = size p
  closing : ∀ p, weight p.closing = -(size p : Int)
  other : ∀ kind, (kind.isNeutral || kind.isAlign) = true → weight kind = 0

namespace Scale

variable {style : Style}

/-- The weight of several items. -/
def total (w : Scale style) (kinds : List ItemKind) : Int := (kinds.map w.weight).sum

/-- The size of several pairs. -/
def load (w : Scale style) (ps : List (Pair style)) : Nat := (ps.map w.size).sum

variable {w : Scale style} {ks ls : List ItemKind}

@[simp] theorem total_nil : w.total [] = 0 := rfl

@[simp] theorem total_append : w.total (ks ++ ls) = w.total ks + w.total ls := by simp [total]

@[simp] theorem total_cons {k : ItemKind} : w.total (k :: ks) = w.weight k + w.total ks := by simp [total]

@[simp] theorem load_cons {p : Pair style} {ps : List (Pair style)} :
    w.load (p :: ps) = w.size p + w.load ps := by
  simp [load]

/-- Where nothing weighs more than zero, the `total` of a part is at least that of the whole. -/
theorem total_le_of_sublist (h : ks.Sublist ls) (hneg : ∀ k ∈ ls, w.weight k ≤ 0) :
    w.total ls ≤ w.total ks := by
  induction h with
  | slnil => exact Int.le_refl _
  | cons k _ ih =>
    obtain ⟨hk, hls⟩ := forall_mem_cons.mp hneg
    have := ih hls
    rw [total_cons]
    omega
  | cons_cons k _ ih =>
    have := ih (forall_mem_cons.mp hneg).2
    rw [total_cons, total_cons]
    omega

theorem total_eq_zero (h : ∀ k ∈ ks, w.weight k = 0) : w.total ks = 0 := by
  induction ks with
  | nil => rfl
  | cons k ks ih =>
    obtain ⟨hk, hks⟩ := forall_mem_cons.mp h
    rw [total_cons, hk, ih hks, Int.zero_add]

/-- Taking some of a list and taking the others away has the `total` of the list. -/
theorem total_filter_add (q : Annotate.Pending → Bool) (ps : List Annotate.Pending) :
    w.total ((ps.filter q).map (·.kind)) + w.total ((ps.filter (!q ·)).map (·.kind)) =
      w.total (ps.map (·.kind)) := by
  induction ps with
  | nil => rfl
  | cons p ps ih =>
    cases hq : q p with
    | true => simp [hq, ← ih, Int.add_assoc]
    | false =>
      simp only [filter_cons, hq, Bool.not_false, if_true, Bool.false_eq_true, if_false,
        map_cons, total_cons, ← ih]
      omega

end Scale

namespace Annotate

/-- No prefix of the items falls below zero, what waits in the queue does not rise, and all together
weighs `d`. -/
structure Level {style : Style} (w : Scale style) (s : State) (d : Nat) : Prop where
  prefixes : ∀ n, 0 ≤ w.total (s.kinds.take n)
  pending : ∀ p ∈ s.pending, w.weight p.kind ≤ 0
  leading : ∀ p ∈ s.pending, p.lead = true → w.weight p.kind = 0
  sum : w.total s.kinds + w.total (s.pending.map Pending.kind) = d

/-- The step ends at the level where it started. -/
def Steady {style : Style} (w : Scale style) (s s' : State) : Prop := ∀ d, Level w s d → Level w s' d

namespace Level

variable {style : Style} {w : Scale style} {s s' : State} {d : Nat} {ps qs : List (Pair style)}

/-- The `total` of the items alone is at least the `Level`. -/
theorem le_total (h : Level w s d) : (d : Int) ≤ w.total s.kinds := by
  have := Scale.total_le_of_sublist (w := w) (nil_sublist (s.pending.map Pending.kind))
    (forall_mem_map.mpr h.pending)
  rw [Scale.total_nil] at this
  have := h.sum
  omega

/-- A `Level` with more items, if the items that are added never fall below zero from here. -/
theorem prefixes_append (h : Level w s d) {ks : List ItemKind} (hkinds : s'.kinds = s.kinds ++ ks)
    (hks : ∀ n, 0 ≤ w.total s.kinds + w.total (ks.take n)) (n : Nat) :
    0 ≤ w.total (s'.kinds.take n) := by
  rw [hkinds, take_append, Scale.total_append]
  rcases Nat.le_total n s.kinds.length with hn | hn
  · rw [Nat.sub_eq_zero_of_le hn, take_zero, Scale.total_nil, Int.add_zero]
    exact h.prefixes n
  · rw [take_of_length_le hn]
    exact hks _

variable {d' : Nat}

/-- A `Level` with one item more, which may take away no more than the level. -/
theorem emit (h : Level w s d) {k : ItemKind} (hkinds : s'.kinds = s.kinds ++ [k])
    (hpending : s'.pending = s.pending) (hd : (d : Int) + w.weight k = d') :
    Level w s' d' where
  prefixes n := by
    refine h.prefixes_append hkinds (fun n => ?_) n
    have hle := h.le_total
    cases n with
    | zero =>
      rw [take_zero, Scale.total_nil]
      omega
    | succ n =>
      rw [take_succ_cons, take_nil, Scale.total_cons, Scale.total_nil]
      omega
  pending := hpending ▸ h.pending
  leading := hpending ▸ h.leading
  sum := by
    have := h.sum
    rw [hkinds, hpending, Scale.total_append, Scale.total_cons, Scale.total_nil]
    omega

/-- A `Level` with one mark more in the queue, which closes something. -/
theorem queue (h : Level w s d) {p : Pending} (hkinds : s'.kinds = s.kinds)
    (hpending : s'.pending = s.pending ++ [p]) (hp : w.weight p.kind ≤ 0)
    (hlead : p.lead = true → w.weight p.kind = 0) (hd : (d : Int) + w.weight p.kind = d') :
    Level w s' d' where
  prefixes n := by
    rw [hkinds]
    exact h.prefixes n
  pending := by
    rw [hpending]
    exact forall_mem_append.mpr ⟨h.pending, forall_mem_singleton.mpr hp⟩
  leading := by
    rw [hpending]
    exact forall_mem_append.mpr ⟨h.leading, forall_mem_singleton.mpr hlead⟩
  sum := by
    have := h.sum
    rw [hkinds, hpending, map_append, Scale.total_append, map_singleton, Scale.total_cons,
      Scale.total_nil]
    omega

/-- Whatever part of the queue is flushed, the `Level` stays. -/
theorem flush (h : Level w s d) (lead : Bool)
    (hkinds : s'.kinds = s.kinds ++ (s.pending.filter (·.lead == lead)).map Pending.kind)
    (hpending : s'.pending = s.pending.filter (·.lead != lead)) : Level w s' d := by
  have hfilter : w.total ((s.pending.filter (·.lead == lead)).map Pending.kind) +
      w.total ((s.pending.filter (·.lead != lead)).map Pending.kind) =
        w.total (s.pending.map Pending.kind) := Scale.total_filter_add _ _
  have hneg : ∀ k ∈ s.pending.map Pending.kind, w.weight k ≤ 0 := forall_mem_map.mpr h.pending
  refine ⟨fun n => ?_, ?_, ?_, ?_⟩
  · refine h.prefixes_append hkinds (fun n => ?_) n
    -- what is flushed takes away no more than all that waits
    have hsub : (((s.pending.filter (·.lead == lead)).map Pending.kind).take n).Sublist
        (s.pending.map Pending.kind) := (take_sublist _ _).trans (filter_sublist.map _)
    have := Scale.total_le_of_sublist hsub hneg
    have := h.sum
    omega
  · rw [hpending]
    exact fun p hp => h.pending p (mem_of_mem_filter hp)
  · rw [hpending]
    exact fun p hp => h.leading p (mem_of_mem_filter hp)
  · have := h.sum
    rw [hkinds, hpending, Scale.total_append]
    omega

theorem move (hmove : Move s s' ps qs) (h : Level w s (d + w.load ps)) :
    Level w s' (d + w.load qs) := by
  have hneutral {k : ItemKind} (hk : k.isNeutral = true) : w.weight k = 0 := w.other k (by simp [hk])
  cases hmove with
  | keep hkinds hpending =>
    exact ⟨fun n => hkinds ▸ h.prefixes n, hpending ▸ h.pending, hpending ▸ h.leading,
      hkinds ▸ hpending ▸ h.sum⟩
  | emit hkind hkinds hpending => exact h.emit hkinds hpending (by rw [hneutral hkind, Int.add_zero])
  | queue hp hkinds hpending =>
    have hzero := hneutral hp
    exact h.queue hkinds hpending hzero.le (fun _ => hzero) (by rw [hzero, Int.add_zero])
  | flush lead hkinds hpending => exact h.flush lead hkinds hpending
  | start p hkinds hpending =>
    refine h.emit hkinds hpending ?_
    rw [w.opening, Scale.load_cons]
    omega
  | stop p hkinds hpending =>
    refine h.emit hkinds hpending ?_
    rw [w.closing, Scale.load_cons]
    omega
  | stopLater p b hkinds hpending =>
    refine h.queue hkinds hpending ?_ Bool.noConfusion ?_
    · rw [w.closing]
      omega
    · rw [w.closing, Scale.load_cons]
      omega

/-- A `Path` raises the `Level` by what it opens, and lowers it by what it closes. -/
theorem path (hpath : Path (Steady w) ps s qs s') :
    ∀ d, Level w s (d + w.load ps) → Level w s' (d + w.load qs) := by
  induction hpath with
  | refl => exact fun _ h => h
  | move hmove _ _ => exact fun _ h => h.move hmove
  | call hR => exact fun _ h => hR _ h
  | swap _ ih =>
    intro d h
    refine ih d ?_
    simp only [Scale.load_cons] at h ⊢
    rwa [Nat.add_left_comm (w.size _) (w.size _)] at h
  | trans _ _ ih₁ ih₂ => exact fun d h => ih₂ d (ih₁ d h)

end Level

/-! ## Alignment groups -/

section Steady

variable {c : Context} {w : Scale c.style} {n : Nat} {visit : Visit} {kind : NodeKind} {t : Tree}
  {ts : List Tree} {ps : List (Pair c.style)}

theorem steady_of_lays {α : Type} {m : Emit α} {is : List Nat} {left : α → List Nat}
    (hm : Laying c (Steady w) is left [] [] m) : Relates c (Steady w) m :=
  hm.relates fun _ _ hpath => Level.path hpath

/-- What is done for alignment groups is `Steady`: it weighs nothing. -/
theorem admits_steady : Admits c (Steady w) := by
  have hqueue {mark : MemberRef → ItemKind} (hmark : ∀ m, (mark m).isAlign = true)
      (member : Option MemberRef) : Relates c (Steady w) (queueMember mark member) := by
    intro s a s' hrun d h
    cases member with
    | none =>
      cases hrun
      exact h
    | some m =>
      have hzero : w.weight (mark m) = 0 := w.other _ (by simp [hmark])
      obtain ⟨b, rfl⟩ := Runs.queue hrun
      exact h.queue (p := ⟨mark m, false, b⟩) rfl rfl hzero.le (fun _ => hzero) (by simp [hzero])
  refine ⟨fun h => Level.path h, fun {s s'} hitems hpending d h => ?_, hqueue fun _ => rfl,
    fun member i opKind _ => ?_⟩
  · have hkinds : s'.kinds = s.kinds := congrArg (·.toList.map Item.kind) hitems
    exact ⟨fun k => hkinds ▸ h.prefixes k, hpending ▸ h.pending, hpending ▸ h.leading,
      hkinds ▸ hpending ▸ h.sum⟩
  · exact steady_of_lays (.bind (.emitCall (hqueue (fun _ => rfl) member) emits_queueAlign) fun _ =>
      lays_between rfl rfl)

/-- After a whole `program` all weights cancel out, and no prefix falls below zero. -/
theorem level_program {m : Nat} {cs : List Tree} {s : State}
    (hrun : Runs c (program (.node .program m cs)) {} () s)
    (hwhole : (Tree.node .program m cs).Every (Tree.Whole (Parsed.kindOf c.tokens))) :
    w.total s.kinds = 0 ∧ ∀ n, 0 ≤ w.total (s.kinds.take n) := by
  have hstart : Level w {} 0 := by
    refine ⟨fun n => ?_, forall_mem_nil _, forall_mem_nil _, rfl⟩
    show 0 ≤ w.total (List.take n [])
    rw [take_nil, Scale.total_nil]
  have hpath : @Path c.style (Steady w) [] {} [] s :=
    (path_program (admits_steady.keeps_visitTree _) hwhole hrun).1
  have hlevel : Level w s 0 := Level.path hpath 0 hstart
  refine ⟨?_, hlevel.prefixes⟩
  have hqueue : w.total (s.pending.map Pending.kind) = 0 := Scale.total_eq_zero
    (forall_mem_map.mpr fun p hp => hlevel.leading p hp (hrun.lead_of_program p hp))
  have := hlevel.sum
  omega

end Steady

end Annotate

/-! ## Streams -/

/-- The change of the indent. -/
def ItemKind.delta : ItemKind → Int
  | indent delta => delta
  | _ => 0

/-- The width by which a pair indents what it encloses. -/
def Pair.width {style : Style} : Pair style → Nat
  | indent width _ => width
  | _ => 0

namespace Scale

variable {style : Style}

/-- The changes of the indent, if the widths of the style are below the upper half of the words. -/
def indent (hwidths : ∀ width ∈ style.indentWidths, 2 * width < Word.limit) : Scale style where
  weight := ItemKind.delta
  size := Pair.width
  opening p := by
    cases p with
    | indent width hwidth =>
      rw [Pair.opening, Pair.width, ItemKind.delta, Word.toInt_of_lt (hwidths width hwidth)]
    | _ => rfl
  closing p := by
    cases p with
    | indent width hwidth =>
      rw [Pair.closing, Pair.width, ItemKind.delta, Word.toInt_of_lt (hwidths width hwidth)]
    | _ => rfl
  other kind h := by cases kind <;> first | rfl | cases h

/-- What opens counts up, and what closes counts down. -/
def counting (opens closes : ItemKind → Bool)
    (hpair : ∀ p : Pair style, closes p.closing = opens p.opening ∧ closes p.opening = false ∧
      opens p.closing = false)
    (hother : ∀ kind : ItemKind, (kind.isNeutral || kind.isAlign) = true →
      opens kind = false ∧ closes kind = false) : Scale style where
  weight kind := (opens kind).toInt - (closes kind).toInt
  size p := (opens p.opening).toNat
  opening p := by
    rw [(hpair p).2.1]
    cases opens p.opening <;> rfl
  closing p := by
    rw [(hpair p).1, (hpair p).2.2]
    cases opens p.opening <;> rfl
  other kind h := by
    rw [(hother kind h).1, (hother kind h).2]
    rfl

theorem total_counting {opens closes : ItemKind → Bool} (hpair) (hother) (ks : List ItemKind) :
    (@counting style opens closes hpair hother).total ks = ks.countP opens - ks.countP closes := by
  induction ks with
  | nil => rfl
  | cons k ks ih =>
    rw [total_cons, ih, countP_cons, countP_cons]
    show (opens k).toInt - (closes k).toInt + _ = _
    cases opens k <;> cases closes k <;> simp <;> omega

end Scale

/-- As many items open as close, and no prefix closes more than it opens. -/
def WellNested (opens closes : ItemKind → Bool) (kinds : List ItemKind) : Prop :=
  kinds.countP opens = kinds.countP closes ∧
    ∀ n, (kinds.take n).countP closes ≤ (kinds.take n).countP opens

namespace ItemKind

/-- The place behind an opening brace. -/
def isLeftBrace : ItemKind → Bool
  | role (.afterLeftBrace _) => true
  | _ => false

/-- The place before a closing brace. -/
def isRightBrace : ItemKind → Bool
  | role (.beforeRightBrace _) => true
  | _ => false

end ItemKind

namespace ItemStream

/-- The stream of the first items only. -/
def first (s : ItemStream) (n : Nat) : ItemStream := { s with items := s.items.take n }

theorem kinds_first (s : ItemStream) (n : Nat) : (s.first n).kinds = s.kinds.take n := by
  simp [first, kinds, map_take]

theorem indentBalance_eq_total {style : Style}
    (hwidths : ∀ width ∈ style.indentWidths, 2 * width < Word.limit) (s : ItemStream) :
    s.indentBalance = (Scale.indent hwidths).total s.kinds := by
  have hfold (items : List Item) (sum : Int) : items.foldl (fun sum i => match i.kind with
      | .indent delta => sum + delta
      | _ => sum) sum = sum + (Scale.indent hwidths).total (items.map Item.kind) := by
    induction items generalizing sum with
    | nil => exact (Int.add_zero sum).symm
    | cons i items ih =>
      rw [foldl_cons, ih, map_cons, Scale.total_cons, ← Int.add_assoc]
      congr 1
      show _ = sum + i.kind.delta
      cases i.kind <;> simp [ItemKind.delta]
  exact (hfold s.items.toList 0).trans (Int.zero_add _)

end ItemStream

section Streams

variable {source : String} {xs : List Lexeme} {style : Style} {stream : ItemStream}

/-- In the stream that `annotate` answers for a source without syntax problems, all weights cancel
out. -/
theorem balanced_of_annotate (herrors : (Parsed.ofTokens (placed xs)).errors = [])
    (h : annotate source (Parsed.ofTokens (placed xs)) style = .ok stream) (w : Scale style) :
    w.total stream.kinds = 0 ∧ ∀ n, 0 ≤ w.total (stream.kinds.take n) := by
  obtain ⟨m, cs, s, hroot, hrun, rfl⟩ := runs_of_annotate h
  have hwhole := Parsed.whole_of_errors herrors
  rw [hroot] at hwhole
  exact Annotate.level_program hrun hwhole

theorem wellNested_of_annotate (herrors : (Parsed.ofTokens (placed xs)).errors = [])
    (h : annotate source (Parsed.ofTokens (placed xs)) style = .ok stream)
    {opens closes : ItemKind → Bool}
    (hpair : ∀ p : Pair style, closes p.closing = opens p.opening ∧ closes p.opening = false ∧
      opens p.closing = false)
    (hother : ∀ kind : ItemKind, (kind.isNeutral || kind.isAlign) = true →
      opens kind = false ∧ closes kind = false) : WellNested opens closes stream.kinds := by
  obtain ⟨htotal, hprefix⟩ := balanced_of_annotate herrors h (.counting opens closes hpair hother)
  rw [Scale.total_counting] at htotal
  refine ⟨by omega, fun n => ?_⟩
  have := hprefix n
  rw [Scale.total_counting] at this
  omega

end Streams

/-- In the stream of a source without syntax problems all marks that come in pairs are balanced: the
changes of the indent cancel out and never take back more than was given, as long as no width of the
style reads as a negative one, and anchors, stretches that may not be broken and braces are well
nested. -/
theorem annotate_balanced {source : String} {parsed : Parsed} (h : Parsed.ofSource source = .ok parsed)
    (herrors : parsed.errors = []) (style : Style)
    (hwidths : ∀ width ∈ style.indentWidths, 2 * width < Word.limit) :
    ∃ stream, annotate source parsed style = .ok stream ∧
      stream.indentBalance = 0 ∧ (∀ n, 0 ≤ (stream.first n).indentBalance) ∧
      WellNested (· == .anchor) (· == .anchorEnd) stream.kinds ∧
      WellNested (· == .unbreakableStart) (· == .unbreakableEnd) stream.kinds ∧
      WellNested ItemKind.isLeftBrace ItemKind.isRightBrace stream.kinds := by
  obtain ⟨xs, hlexes, rfl⟩ := Parsed.ofSource_eq_ok_iff.mp h
  obtain ⟨stream, hstream, -⟩ := annotate_spec style hlexes
  obtain ⟨htotal, hprefix⟩ := balanced_of_annotate herrors hstream (.indent hwidths)
  refine ⟨stream, hstream, ?_, fun n => ?_, ?_, ?_, ?_⟩
  · rw [ItemStream.indentBalance_eq_total hwidths, htotal]
  · rw [ItemStream.indentBalance_eq_total hwidths, ItemStream.kinds_first]
    exact hprefix n
  · refine wellNested_of_annotate herrors hstream (fun p => ?_) fun kind hkind => ?_
    · cases p <;> simp [Pair.opening, Pair.closing]
    · cases kind <;> first | exact ⟨rfl, rfl⟩ | cases hkind
  · refine wellNested_of_annotate herrors hstream (fun p => ?_) fun kind hkind => ?_
    · cases p <;> simp [Pair.opening, Pair.closing]
    · cases kind <;> first | exact ⟨rfl, rfl⟩ | cases hkind
  · refine wellNested_of_annotate herrors hstream (fun p => ?_) fun kind hkind => ?_
    · cases p <;> exact ⟨rfl, rfl, rfl⟩
    · cases kind with
      | role r => cases r <;> first | exact ⟨rfl, rfl⟩ | cases hkind
      | _ => exact ⟨rfl, rfl⟩

/-- A class with rules among traits, and a call over two lines: the clause behind the name of the class
is indented, and the two pairs of braces are, one within the other. -/
theorem annotate_balanced_class : ∃ parsed stream,
    Parsed.ofSource "<?php class A extends B \x7b use T \x7b a as b; \x7d \x7d f($x ?\n1 : 2);" = .ok parsed ∧
      parsed.errors = [] ∧ (∀ width ∈ Style.indentWidths {}, 2 * width < Word.limit) ∧
      annotate "<?php class A extends B \x7b use T \x7b a as b; \x7d \x7d f($x ?\n1 : 2);" parsed {} =
        .ok stream ∧
      (stream.kinds.map ItemKind.delta).filter (· != 0) = [8, -8, 4, 4, -4, -4] ∧
      stream.indentBalance = 0 ∧ (∀ n, 0 ≤ (stream.first n).indentBalance) ∧
      WellNested (· == .anchor) (· == .anchorEnd) stream.kinds ∧
      WellNested (· == .unbreakableStart) (· == .unbreakableEnd) stream.kinds ∧
      WellNested ItemKind.isLeftBrace ItemKind.isRightBrace stream.kinds := by
  have hparsed : (Parsed.ofSource
      "<?php class A extends B \x7b use T \x7b a as b; \x7d \x7d f($x ?\n1 : 2);").toOption.any
      (fun p => p.errors.isEmpty && (annotate
        "<?php class A extends B \x7b use T \x7b a as b; \x7d \x7d f($x ?\n1 : 2);" p {}).toOption.any fun s =>
          (s.kinds.map ItemKind.delta).filter (· != 0) == [8, -8, 4, 4, -4, -4]) = true := by
    decide +kernel
  have hwidths : ∀ width ∈ Style.indentWidths {}, 2 * width < Word.limit := by decide
  obtain ⟨parsed, h, hparsed⟩ := exists_ok_of_any hparsed
  obtain ⟨herrors, hdeltas⟩ := Bool.and_eq_true_iff.mp hparsed
  have herrors : parsed.errors = [] := by simpa using herrors
  obtain ⟨stream, hstream, hbalanced⟩ := annotate_balanced h herrors {} hwidths
  rw [hstream] at hdeltas
  exact ⟨parsed, stream, h, herrors, hwidths, hstream, beq_iff_eq.mp hdeltas, hbalanced⟩

end CodeLayout
