import CodeLayout.Proofs.Format.Gaps
import Mathlib.Order.Bounds.Basic

/-!
# Blank lines

The line feeds of a gap are the outcome of all its roles: a fixed number, what is kept of the source,
and the least numbers of blank lines.  Each of them is bounded by the options (`within_demand`), and so
is the outcome; where a line is broken and no tag has its say, the least numbers of all roles are met
(`lines_of_gapBetween`).
-/

namespace CodeLayout

open List

/-! ## Options -/

namespace Style.BlankLineOptions

/-- The options that count blank lines. -/
def counts (o : BlankLineOptions) : List Nat :=
  [o.maxPreserved, o.beforeNamespace, o.afterNamespace, o.beforeUse, o.afterUse, o.betweenUseTypes,
    o.beforeUseTrait, o.afterUseTrait, o.beforeClass, o.afterClass, o.afterClassHeader,
    o.beforeClassEnd, o.beforeFields, o.afterFields, o.betweenFields, o.beforeFunction,
    o.afterFunction, o.beforeFunctionEnd, o.afterOpenPhpTag, o.afterOpenPhpTagInHtml,
    o.beforeClosePhpTag]

/-- The most blank lines that an option asks for or keeps. -/
def most (o : BlankLineOptions) : Nat := o.counts.foldr max 0

theorem le_most {o : BlankLineOptions} {n : Nat} (h : n ∈ o.counts) : n ≤ o.most := by
  rw [most]
  generalize o.counts = counts at h ⊢
  induction counts with
  | nil => cases h
  | cons m ms ih =>
    rcases mem_cons.mp h with rfl | h
    · exact Nat.le_max_left _ _
    · exact Nat.le_trans (ih h) (Nat.le_max_right _ _)

end Style.BlankLineOptions

open Style.BlankLineOptions (le_most counts)

theorem Style.blankLineMinimum_le (style : Style) (policy : BlankPolicy) :
    style.blankLineMinimum policy ≤ style.blankLines.most := by
  cases policy <;> exact BlankLineOptions.le_most (by simp [BlankLineOptions.counts, blankLineMinimum])

namespace Render

/-! ## Demands -/

/-- A demand for at most so many blank lines that leaves other demands their say. -/
inductive Demand.Mild (most : Nat) : Demand → Prop
  | fixed {lines spaces : Nat} : lines ≤ most + 1 → Mild most (.fixed lines spaces)
  | soft {spaces : Nat} {start : LineStart} : Mild most (.soft spaces start)
  | blank {lines : Nat} : lines ≤ most → Mild most (.blank lines)

theorem Demand.Mild.ite {most : Nat} {c : Prop} [Decidable c] {d d' : Demand} (h : d.Mild most)
    (h' : d'.Mild most) : (if c then d else d').Mild most := by
  split
  · exact h
  · exact h'

/-- Roles next to a tag. -/
def isTagRole : Role → Bool
  | .afterOpenTag | .beforeCloseTag => true
  | _ => false

section

variable (v : GapView)

theorem GapView.keep_le : v.keep ≤ v.style.blankLines.most + 1 := by
  have := le_most (o := v.style.blankLines)
    (n := v.style.blankLines.maxPreserved) mem_cons_self
  have := Word.add_le v.style.blankLines.maxPreserved 1
  rw [keep]
  omega

variable (most : Nat)

theorem mild_fixed_zero (spaces : Nat) : (Demand.fixed 0 spaces).Mild most := .fixed (Nat.zero_le _)

theorem mild_fixed_one (spaces : Nat) : (Demand.fixed 1 spaces).Mild most :=
  .fixed (Nat.le_add_left 1 most)

theorem mild_keepOr (spaces : Nat) (start : LineStart) : (v.keepOr spaces start).Mild most :=
  .ite (mild_fixed_zero most spaces) .soft

theorem mild_wrap (breakable : Bool) (wrapping : Wrapping) (width : Nat) (start : LineStart)
    (spaces : Nat) : (v.wrap breakable wrapping width start spaces).Mild most :=
  .ite (mild_fixed_one most _) (mild_keepOr v most spaces start)

theorem mild_operatorGap (breakable : Bool) (op : OpKind) (isBefore : Bool) :
    (operatorGap v breakable op isBefore).Mild most := by
  unfold operatorGap
  dsimp only
  split
  · exact mild_fixed_zero most _
  · exact .ite (mild_wrap ..) (.ite (mild_fixed_zero most _) (mild_keepOr ..))

variable {c : Construct}

theorem mild_leftBrace (hbrace : v.style.bracePlacement c ≠ .preserveExisting) :
    (leftBrace v c).Mild most := by
  unfold leftBrace
  split
  · exact mild_fixed_zero most _
  · exact mild_fixed_one most _
  · exact mild_fixed_one most _
  · next hpreserve => exact absurd hpreserve hbrace

theorem mild_rightBrace (hbrace : v.style.bracePlacement c ≠ .preserveExisting) :
    (rightBrace v c).Mild v.style.blankLines.most := by
  unfold rightBrace
  split
  · next hpreserve _ => exact absurd hpreserve hbrace
  · refine .fixed ((Word.add_le _ _).trans ?_)
    rw [Nat.add_comm]
    refine Nat.succ_le_succ ?_
    unfold blankBeforeEnd
    split
    · exact le_most (by simp [counts])
    · exact le_most (by simp [counts])
    · exact le_most (by simp [counts])
    · exact Nat.zero_le _

theorem blankAfterHeader_le (style : Style) (c : Construct) :
    blankAfterHeader style c ≤ style.blankLines.most := by
  unfold blankAfterHeader
  split
  · exact le_most (by simp [counts])
  · exact le_most (by simp [counts])
  · exact Nat.zero_le _

/-- Away from the tags every `demand` is `Mild`, if no brace is to stay where it is. -/
theorem mild_demand (hbraces : ∀ c, v.style.bracePlacement c ≠ .preserveExisting)
    (breakable : Bool) {role : Role} (htag : isTagRole role = false) :
    (demand v breakable role).Mild v.style.blankLines.most := by
  have hzero (spaces : Nat) := mild_fixed_zero v.style.blankLines.most spaces
  have hone (spaces : Nat) := mild_fixed_one v.style.blankLines.most spaces
  cases role with
  | afterOpenTag => cases htag
  | beforeCloseTag => cases htag
  | blank policy => exact .blank (v.style.blankLineMinimum_le policy)
  | beforeStatement =>
    have := v.keep_le
    exact .ite (.fixed (by omega)) (hzero _)
  | beforeLeftBrace c => exact mild_leftBrace v _ (hbraces c)
  | beforeRightBrace c => exact mild_rightBrace v (hbraces c)
  | afterLeftBrace c =>
    have := blankAfterHeader_le v.style c
    have := Word.add_le 1 (blankAfterHeader v.style c)
    exact .fixed (by omega)
  | afterLeftParen p => exact .ite (mild_keepOr ..) (hzero _)
  | beforeRightParen p => exact .ite (mild_keepOr ..) (hzero _)
  | breakList => exact hone _
  | beforeOp op => exact mild_operatorGap ..
  | afterOp op => exact mild_operatorGap ..
  | beforeKeyword k => exact .ite (hone _) (hzero _)
  | afterModifiers => exact .ite (hone _) (hzero _)
  | afterAttribute => exact .ite (hone _) (hzero _)
  | afterComma => exact mild_keepOr ..
  | afterSemi => exact mild_keepOr ..
  | afterForSemi => exact mild_keepOr ..
  | inList kind => exact mild_wrap ..
  | beforeExtends => exact mild_wrap ..
  | beforeImplements => exact mild_wrap ..
  | bodyWithoutBraces c => exact mild_wrap ..
  | inChainedMethodCalls => exact mild_wrap ..
  | _ => exact hzero _

/-- A demand for at most so many blank lines. -/
def Demand.Within (most : Nat) (d : Demand) : Prop :=
  d.Mild most ∨ ∃ lines spaces, d = .forced lines spaces ∧ lines ≤ most + 1

/-- No `demand` asks for more blank lines than the options, if no brace is to stay where it is. -/
theorem within_demand (hbraces : ∀ c, v.style.bracePlacement c ≠ .preserveExisting)
    (breakable : Bool) (role : Role) : (demand v breakable role).Within v.style.blankLines.most := by
  have hkeep := v.keep_le
  have hforced {lines spaces : Nat} (h : lines ≤ v.style.blankLines.most + 1) :
      (Demand.forced lines spaces).Within v.style.blankLines.most := .inr ⟨_, _, rfl, h⟩
  have hcount {n : Nat} (h : n ∈ v.style.blankLines.counts) :
      max (Word.add n 1) v.keep ≤ v.style.blankLines.most + 1 := by
    have := le_most h
    have := Word.add_le n 1
    omega
  cases htag : isTagRole role with
  | false => exact .inl (mild_demand v hbraces breakable htag)
  | true =>
    cases role with
    | afterOpenTag =>
      show (afterOpenTag v).Within _
      unfold afterOpenTag
      dsimp only
      split
      · exact hforced (Nat.zero_le _)
      · split
        · split
          · exact hforced (hcount (by simp [counts]))
          · exact hforced (hcount (by simp [counts]))
        · exact hforced (Nat.zero_le _)
    | beforeCloseTag =>
      show (beforeCloseTag v).Within _
      unfold beforeCloseTag
      split
      · exact hforced (hcount (by simp [counts]))
      · exact hforced (Nat.zero_le _)
    | _ => cases htag

end

/-! ## All demands of a gap -/

namespace Demands

/-- The demands ask for at most so many blank lines. -/
structure Within (most : Nat) (d : Demands) : Prop where
  forced : ∀ counts, d.forced = some counts → counts.1 ≤ most + 1
  fixed : ∀ counts, d.fixed = some counts → counts.1 ≤ most + 1
  blank : ∀ lines, d.blank = some lines → lines ≤ most

variable {d : Demands} {lines n : Nat}

theorem Within.add {most : Nat} (h : d.Within most) {x : Demand} (hx : x.Within most) :
    (d.add x).Within most := by
  rcases hx with (hlines | _ | hlines) | ⟨lines, spaces, rfl, hlines⟩
  · exact { h with fixed := fun _ heq => by cases heq; exact hlines }
  · exact { h with }
  · refine { h with blank := fun lines heq => ?_ }
    cases heq
    cases hblank : d.blank with
    | none => exact hlines
    | some most => exact Nat.max_le.mpr ⟨h.blank most hblank, hlines⟩
  · exact { h with forced := fun _ heq => by cases heq; exact hlines }

/-- `emptyPair?` breaks a pair without content once at most. -/
theorem emptyPair?_le {v : GapView} {roles : List Role} {counts : Nat × Nat}
    (h : emptyPair? v roles = some counts) : counts.1 ≤ 1 := by
  unfold emptyPair? at h
  obtain ⟨opened, -, h⟩ := Option.bind_eq_some_iff.mp h
  obtain ⟨closed, -, h⟩ := Option.bind_eq_some_iff.mp h
  dsimp only at h
  by_cases hcontains : roles.contains closed = true
  · rw [hcontains, if_neg (by decide)] at h
    split at h
    · split at h <;> cases h <;> simp
    · cases h
      exact Nat.zero_le 1
  · rw [if_pos (by simpa using hcontains)] at h
    cases h

variable (v : GapView)

theorem within_ofRoles (hbraces : ∀ c, v.style.bracePlacement c ≠ .preserveExisting)
    (roles : List (Role × Bool)) : (ofRoles v roles).Within v.style.blankLines.most := by
  have hfold : ∀ d : Demands, d.Within v.style.blankLines.most →
      (roles.foldl (fun d r => d.add (demand v r.2 r.1)) d).Within v.style.blankLines.most := by
    induction roles with
    | nil => exact fun d h => h
    | cons r roles ih => exact fun d h => ih _ (h.add (within_demand v hbraces r.2 r.1))
  have hall := hfold {} ⟨nofun, nofun, nofun⟩
  unfold ofRoles
  dsimp only
  split
  · next counts hpair =>
    refine { hall with fixed := fun _ heq => ?_ }
    cases heq
    exact Nat.le_trans (emptyPair?_le hpair) (Nat.le_add_left _ _)
  · exact hall

/-- Without a role next to a tag no demand is `forced` on all others. -/
theorem forced_ofRoles (hbraces : ∀ c, v.style.bracePlacement c ≠ .preserveExisting)
    {roles : List (Role × Bool)} (htags : ∀ r ∈ roles, isTagRole r.1 = false) :
    (ofRoles v roles).forced = none := by
  have hfold : ∀ d : Demands, d.forced = none →
      (roles.foldl (fun d r => d.add (demand v r.2 r.1)) d).forced = none := by
    induction roles with
    | nil => exact fun d h => h
    | cons r roles ih =>
      intro d h
      obtain ⟨hr, htags⟩ := forall_mem_cons.mp htags
      refine ih htags _ ?_
      have hmild := mild_demand v hbraces r.2 hr
      dsimp only
      generalize demand v r.2 r.1 = x at hmild
      cases hmild <;> exact h
  unfold ofRoles
  dsimp only
  split <;> exact hfold {} rfl

theorem blank_add {most : Nat} (h : d.blank = some most) (x : Demand) :
    ∃ lines, (d.add x).blank = some lines ∧ most ≤ lines := by
  cases x with
  | blank lines => exact ⟨max most lines, by rw [add, h], Nat.le_max_left _ _⟩
  | _ => exact ⟨most, h, Nat.le_refl _⟩

/-- `ofRoles` keeps the blank lines that any of the roles asks for. -/
theorem le_blank_ofRoles {roles : List (Role × Bool)} {policy : BlankPolicy} {breakable : Bool}
    (h : (.blank policy, breakable) ∈ roles) :
    ∃ lines, (ofRoles v roles).blank = some lines ∧ v.style.blankLineMinimum policy ≤ lines := by
  -- later roles only raise the number
  have hkeeps : ∀ (roles : List (Role × Bool)) (d : Demands) (most : Nat), d.blank = some most →
      ∃ lines, (roles.foldl (fun d r => d.add (demand v r.2 r.1)) d).blank = some lines ∧
        most ≤ lines := by
    intro roles
    induction roles with
    | nil => exact fun d most hd => ⟨most, hd, Nat.le_refl _⟩
    | cons r roles ih =>
      intro d most hd
      obtain ⟨lines, hlines, hle⟩ := blank_add hd (demand v r.2 r.1)
      obtain ⟨lines', hlines', hle'⟩ := ih _ lines hlines
      exact ⟨lines', hlines', Nat.le_trans hle hle'⟩
  obtain ⟨before, behind, rfl⟩ := append_of_mem h
  have hhere : ∀ d : Demands, ∃ lines,
      (d.add (.blank (v.style.blankLineMinimum policy))).blank = some lines ∧
        v.style.blankLineMinimum policy ≤ lines := by
    intro d
    refine ⟨_, rfl, ?_⟩
    cases d.blank with
    | none => exact Nat.le_refl _
    | some most => exact Nat.le_max_right _ _
  obtain ⟨most, hmost, hle⟩ := hhere (before.foldl (fun d r => d.add (demand v r.2 r.1)) {})
  obtain ⟨lines, hlines, hle'⟩ := hkeeps behind _ most hmost
  refine ⟨lines, ?_, Nat.le_trans hle hle'⟩
  unfold ofRoles
  dsimp only
  rw [foldl_append, foldl_cons]
  split <;> exact hlines

theorem settle_le {v : GapView} (hd : d.Within v.style.blankLines.most)
    (h : d.settle v = .broken lines n) : lines ≤ v.style.blankLines.most + 1 := by
  have hkeep := v.keep_le
  have hcounts {counts : Nat × Nat} (hle : counts.1 ≤ v.style.blankLines.most + 1)
      (h : Gap.ofCounts counts.1 counts.2 = .broken lines n) :
      lines ≤ v.style.blankLines.most + 1 := by
    unfold Gap.ofCounts at h
    split at h
    · cases h
      exact hle
    · cases h
  unfold settle at h
  split at h
  · next hforced => exact hcounts (hd.forced _ hforced) h
  · next hfixed => exact hcounts (hd.fixed _ hfixed) h
  · split at h
    · cases h
      omega
    · cases h
  · split at h
    · cases h
      omega
    · cases h

/-- `settle` answers `kept` only if the source does not break the line. -/
theorem oldNewlines_of_settle {v : GapView} (h : d.settle v = .kept) : v.oldNewlines = 0 := by
  unfold settle Gap.ofCounts at h
  split at h <;> split at h <;> cases h
  · omega

/-- The gap that the demands decide, with its blank lines. -/
def gap (d : Demands) (v : GapView) : Gap :=
  match d.blank with
  | some blank => if d.forced.isNone then (d.settle v).withBlank blank else d.settle v
  | none => d.settle v

theorem gap_eq_kept {v : GapView} (h : d.gap v = .kept) : v.oldNewlines = 0 := by
  refine oldNewlines_of_settle (d := d) ?_
  unfold gap Gap.withBlank at h
  split at h
  · split at h
    · split at h
      · cases h
      · exact h
    · exact h
  · exact h

/-- Where `gap` breaks the line, the lines are those of `settle`, with the blank lines unless a
demand decides over all others. -/
theorem gap_eq_broken {v : GapView} (h : d.gap v = .broken lines n) :
    ∃ base, d.settle v = .broken base n ∧ base ≤ lines ∧
      (lines = base ∨ ∃ blank, d.blank = some blank ∧ lines = Word.add blank 1) ∧
      (d.forced = none → ∀ blank, d.blank = some blank → Word.add blank 1 ≤ lines) := by
  unfold gap at h
  split at h
  · next blank hblank =>
    split at h
    · unfold Gap.withBlank at h
      split at h
      · next base spaces hsettle =>
        cases h
        refine ⟨base, hsettle, Nat.le_max_left _ _, ?_, fun _ blank' hblank' => ?_⟩
        · rcases Nat.le_total base (Word.add blank 1) with hle | hle
          · exact .inr ⟨blank, hblank, Nat.max_eq_right hle⟩
          · exact .inl (Nat.max_eq_left hle)
        · cases hblank.symm.trans hblank'
          exact Nat.le_max_right _ _
      · next hnot => exact absurd h (hnot _ _)
    · next hforced =>
      refine ⟨lines, h, le_rfl, .inl rfl, fun hnone => ?_⟩
      rw [hnone] at hforced
      exact absurd rfl hforced
  · next hblank =>
    refine ⟨lines, h, le_rfl, .inl rfl, fun _ blank hsome => ?_⟩
    cases hblank.symm.trans hsome

end Demands

/-! ## What is written -/

section

variable {v : GapView} {roles : List (Role × Bool)} {prev : Option ItemKind} {next : ItemKind}
  {lines n : Nat}

theorem gapBetween_eq : gapBetween v roles prev next =
    if (Demands.ofRoles v roles).keepsDistance v next then .kept
    else if prev == some .lineComment && !((Demands.ofRoles v roles).gap v).isBroken then
      .broken 1 v.indent
    else (Demands.ofRoles v roles).gap v := rfl

theorem oldNewlines_of_gapBetween (h : gapBetween v roles prev next = .kept) :
    v.oldNewlines = 0 := by
  rw [gapBetween_eq] at h
  split at h
  · next hkeeps =>
    simp only [Demands.keepsDistance, Bool.and_eq_true, beq_iff_eq] at hkeeps
    exact hkeeps.1.1.2
  · split at h
    · cases h
    · exact Demands.gap_eq_kept h

/-- `gapBetween` breaks a line at least once and not more often than the options allow.  Behind
other texts than line comments, and away from the tags, the blank lines that the roles ask for are
there. -/
theorem lines_of_gapBetween (hbraces : ∀ c, v.style.bracePlacement c ≠ .preserveExisting)
    (hwords : v.style.blankLines.most + 1 < Word.limit)
    (h : gapBetween v roles prev next = .broken lines n) :
    1 ≤ lines ∧ lines ≤ 1 + v.style.blankLines.most ∧
      ((∀ r ∈ roles, isTagRole r.1 = false) → prev ≠ some .lineComment →
        ∀ policy breakable, (.blank policy, breakable) ∈ roles →
          1 + v.style.blankLineMinimum policy ≤ lines) := by
  rw [gapBetween_eq] at h
  split at h
  · cases h
  · split at h
    · next hcomment =>
      simp only [Bool.and_eq_true, beq_iff_eq] at hcomment
      cases h
      exact ⟨Nat.le_refl 1, Nat.le_add_right 1 _, fun _ hprev => absurd hcomment.1 hprev⟩
    · obtain ⟨base, hsettle, hge, hlines, hblank⟩ := Demands.gap_eq_broken h
      have hwithin := Demands.within_ofRoles v hbraces roles
      have hbase := Demands.settle_le hwithin hsettle
      have hpos := Demands.pos_of_settle hsettle
      refine ⟨Nat.le_trans hpos hge, ?_, fun htags _ policy breakable hmem => ?_⟩
      · rcases hlines with rfl | ⟨blank, hsome, rfl⟩
        · omega
        · have := hwithin.blank blank hsome
          have := Word.add_le blank 1
          omega
      · obtain ⟨blank, hsome, hle⟩ := Demands.le_blank_ofRoles v hmem
        have := hwithin.blank blank hsome
        have hadd : Word.add blank 1 = blank + 1 := Word.add_of_lt (by omega)
        have := hblank (Demands.forced_ofRoles v hbraces htags) blank hsome
        omega

end

/-- What the options say of a gap that is written as `g'`, in front of the next text if there is one.
-/
def WithinOptions (style : Style) (b : Between) (next : Option Item) (g' : List Char) : Prop :=
  '\n' ∉ g' ∨ ∃ lines n, g' = List.replicate lines '\n' ++ (style.indentString n).toList ∧
    1 ≤ lines ∧ lines ≤ 1 + style.blankLines.most ∧
    (next.isSome = true → (∀ role ∈ b.roles, isTagRole role = false) →
      b.prev.map Item.kind ≠ some .lineComment →
      ∀ policy, .blank policy ∈ b.roles → 1 + style.blankLineMinimum policy ≤ lines)

theorem Pass.not_mem_spaces (p : Pass) (align : Option MemberRef) (n : Nat) :
    '\n' ∉ (p.spaces align n).toList := by
  intro hmem
  rcases p.spaces_blank align n _ hmem with h | h <;> cases h

variable {p : Pass} {g : List Char}

/-- A blank gap of the source without `oldNewlines` holds no line feed. -/
theorem Pass.not_mem_of_oldNewlines {s : State} {ahead : List Item}
    (hg : ∀ c ∈ g, Lexeme.isBlank c = true)
    (h : (p.view s (String.ofList g) ahead).oldNewlines = 0) : '\n' ∉ g := by
  have hwhite : Text.isAllWhiteSpace (String.ofList g) = true := by
    rw [Text.isAllWhiteSpace, String.toList_ofList, all_eq_true]
    intro c hc
    have hblank := hg c hc
    simp only [Lexeme.isBlank, Bool.or_eq_true, beq_iff_eq] at hblank
    rcases hblank with ((rfl | rfl) | rfl) | rfl <;> decide
  rw [GapView.oldNewlines, view, if_pos hwhite] at h
  simpa [newlines, Text.occurrences, count_eq_zero] using h

theorem Pass.Settles.withinOptions {b : Between} {next : Option Item} {g' : List Char}
    (hbraces : ∀ c, p.style.bracePlacement c ≠ .preserveExisting)
    (hwords : p.style.blankLines.most + 1 < Word.limit)
    (hg : ∀ c ∈ g, Lexeme.isBlank c = true) (h : p.Settles b next g g') :
    WithinOptions p.style b next g' := by
  cases next with
  | some i =>
    obtain ⟨s, ahead, rfl, rfl⟩ := h.gap
    cases hgap : gapBetween (p.view s (String.ofList g) (i :: ahead)) s.marks.roles
        (s.prev.map Item.kind) i.kind with
    | kept =>
      left
      rw [gapText, String.toList_ofList]
      exact Pass.not_mem_of_oldNewlines hg (oldNewlines_of_gapBetween hgap)
    | inline n => exact .inl (p.not_mem_spaces _ n)
    | broken lines n =>
      right
      obtain ⟨hpos, hle, hblank⟩ := lines_of_gapBetween hbraces hwords hgap
      refine ⟨lines, n, ?_, hpos, hle, fun _ htags hprev policy hpolicy => ?_⟩
      · rw [gapText, String.toList_append, Text.toList_repeated]
      · obtain ⟨⟨role, breakable⟩, hmem, rfl⟩ := mem_map.mp hpolicy
        exact hblank (fun r hr => htags _ (mem_map_of_mem hr)) hprev policy breakable hmem
  | none =>
    obtain ⟨s, rfl, rfl⟩ := h
    unfold lastGap
    dsimp only
    split
    · refine .inr ⟨1, 0, ?_, Nat.le_refl 1, Nat.le_add_right 1 _,
        fun hsome => absurd hsome Bool.false_ne_true⟩
      rw [gapText, String.toList_append, Text.toList_repeated]
    · next hkept =>
      left
      rw [gapText, String.toList_ofList]
      intro hmem
      refine hkept (Bool.or_eq_true_iff.mpr (.inr ?_))
      simpa [Text.hasNewline, Text.holds] using hmem

end Render

/-- Blank lines stay within the options, as long as one line more than the options say is a machine
word: a readable source is formatted, and what is written for each of its gaps, the last one
included, holds no line feed, or it is a number of line feeds and an indent.  There are at most
`style.blankLines.most` blank lines.  In front of a text there are at least as many as each of the
gap's roles asks for, unless the gap follows a line comment or stands next to a tag. -/
theorem format_blankLines {source : String} {parsed : Parsed}
    (h : Parsed.ofSource source = .ok parsed) (style : Style)
    (hbraces : ∀ c, style.bracePlacement c ≠ .preserveExisting)
    (hwords : style.blankLines.most + 1 < Word.limit) :
    ∃ stream t, annotate source parsed style = .ok stream ∧ format source style = .ok t ∧
      Render.Gapped source (fun b next _ g' => Render.WithinOptions style b next g') {}
        stream.items.toList source.toList t.toList := by
  obtain ⟨stream, t, p, hstream, ht, -, rfl, hgapped⟩ := format_gapped h style
  refine ⟨stream, t, hstream, ht, hgapped.imp ?_⟩
  intro b next g g' hgap hsettles
  exact hsettles.withinOptions hbraces hwords hgap.blank

/-- Blank lines of the source that are missing, and others that are too many, in a class with a line
comment behind its brace. -/
theorem format_blankLines_class : ∃ parsed stream t,
    Parsed.ofSource "<?php use A;class B\x7b // c\nvar $d;\n\n\n\n\x7d\n\n" = .ok parsed ∧
    (∀ c, Style.bracePlacement {} c ≠ .preserveExisting) ∧
    (Style.BlankLineOptions.most {} = 1 ∧ 1 + 1 < Word.limit) ∧
    annotate "<?php use A;class B\x7b // c\nvar $d;\n\n\n\n\x7d\n\n" parsed {} = .ok stream ∧
    format "<?php use A;class B\x7b // c\nvar $d;\n\n\n\n\x7d\n\n" {} = .ok t ∧
    t = "<?php\n\nuse A;\n\nclass B \x7b // c\n    var $d;\n\n\x7d\n" ∧
    Render.Gapped "<?php use A;class B\x7b // c\nvar $d;\n\n\n\n\x7d\n\n"
      (fun b next _ g' => Render.WithinOptions {} b next g') {} stream.items.toList
      "<?php use A;class B\x7b // c\nvar $d;\n\n\n\n\x7d\n\n".toList t.toList := by
  have hparsed : (Parsed.ofSource "<?php use A;class B\x7b // c\nvar $d;\n\n\n\n\x7d\n\n").toOption.isSome =
      true := by decide +kernel
  have hformat : rendered "<?php use A;class B\x7b // c\nvar $d;\n\n\n\n\x7d\n\n" {} =
      .ok "<?php\n\nuse A;\n\nclass B \x7b // c\n    var $d;\n\n\x7d\n" := by decide +kernel
  have hbraces : ∀ c, Style.bracePlacement {} c ≠ .preserveExisting := by
    intro c
    cases c <;> decide
  cases h : Parsed.ofSource "<?php use A;class B\x7b // c\nvar $d;\n\n\n\n\x7d\n\n" with
  | error e => rw [h] at hparsed; cases hparsed
  | ok parsed =>
      obtain ⟨stream, t, hstream, ht, hgapped⟩ := format_blankLines h {} hbraces (by decide)
      refine ⟨parsed, stream, t, rfl, hbraces, ⟨rfl, by decide⟩, hstream, ht, ?_, hgapped⟩
      rw [format_eq_rendered, hformat] at ht
      exact (Except.ok.inj ht).symm

end CodeLayout
