import CodeLayout.Proofs.Render.Columns
import CodeLayout.Stream.Alignment
import CodeLayout.Word
import Mathlib.Order.Bounds.Basic

/-!
# The column of a group

Whatever has been done to a table of alignment groups, once it is finalized the paddings of a group
lead all its members to one column (`padding?_ofOps`): with spaces, this is the widest end of their
texts, and with tabs, the first tab stop behind it.
-/

namespace CodeLayout

open List

/-! ## Tab stops -/

namespace Style

variable {s : Style}

/-- The first tab stop behind a column. -/
def tabStopPast (s : Style) (column : Nat) : Nat :=
  (column / s.indent.tabSize + 1) * s.indent.tabSize

theorem isLeast_tabStopPast (htab : 0 < s.indent.tabSize) (column : Nat) :
    IsLeast {stop | s.indent.tabSize ∣ stop ∧ column < stop} (s.tabStopPast column) := by
  have hpast : column < s.tabStopPast column := by
    rw [tabStopPast, Nat.mul_comm]
    exact Nat.lt_mul_div_succ column htab
  refine ⟨⟨Nat.dvd_mul_left _ _, hpast⟩, ?_⟩
  rintro _ ⟨⟨k, rfl⟩, hlt⟩
  have hk : column / s.indent.tabSize < k := Nat.div_lt_of_lt_mul hlt
  rw [tabStopPast, Nat.mul_comm s.indent.tabSize k]
  exact Nat.mul_le_mul_right _ hk

theorem advance_tab (htab : 0 < s.indent.tabSize) (column : Nat) :
    s.advance column '\t' = s.tabStopPast column := by
  have hmod := Nat.div_add_mod column s.indent.tabSize
  have hlt := Nat.mod_lt column htab
  rw [advance, Nat.max_eq_left htab, tabStopPast, Nat.add_mul, Nat.one_mul, Nat.mul_comm]
  show column + s.indent.tabSize - column % s.indent.tabSize = _
  omega

/-- `columnAfter` some tabs is a tab stop for each of them. -/
theorem columnAfter_tabs (htab : 0 < s.indent.tabSize) (column n : Nat) :
    s.columnAfter column (Text.repeated '\t' (n + 1)) =
      (column / s.indent.tabSize + (n + 1)) * s.indent.tabSize := by
  rw [columnAfter, Text.toList_repeated]
  induction n generalizing column with
  | zero => exact s.advance_tab htab column
  | succ n ih =>
    rw [replicate_succ, foldl_cons, ih, advance_tab htab, tabStopPast,
      Nat.mul_div_cancel _ htab]
    congr 1
    omega

end Style

namespace AlignTable

/-! ## Tables -/

/-- What may be done to a table. -/
inductive Op where
  | newGroup (kind : GroupKind)
  | addMember (group : Nat) (width : Option Nat)
  | setMeasure (member : MemberRef) (measure : Measure)
deriving DecidableEq, Repr

/-- The table after an operation. -/
def apply (t : AlignTable) : Op → AlignTable
  | .newGroup kind => (t.newGroup kind).1
  | .addMember group width => (t.addMember group width).1
  | .setMeasure m x => t.setMeasure m x

/-- The table that operations make, one after the other. -/
def ofOps (ops : List Op) : AlignTable := ops.foldl apply {}

/-- The measure of a member. -/
def measure? (t : AlignTable) (m : MemberRef) : Option Measure :=
  t.groups[m.group]?.bind (·.members[m.member]?)

/-- The column of a group: the widest end of its members. -/
def column (t : AlignTable) (group : Nat) : Nat :=
  (t.groups[group]?.bind (·.stops.max?)).getD 0

/-- Does the style line up the group? -/
def isEnabled (t : AlignTable) (group : Nat) (style : Style) : Bool :=
  t.groups[group]?.any (·.isEnabled style)

/-- The member belongs to a group that the style lines up, its text has the width, and at least two
members of the group have one. -/
def LinedUp (t : AlignTable) (style : Style) (m : MemberRef) (start width : Nat) : Prop :=
  ∃ g, t.groups[m.group]? = some g ∧ g.isEnabled style = true ∧
    g.members[m.member]? = some ⟨start, some width⟩ ∧
    2 ≤ g.members.countP (·.width.isSome)

/-- The end of every member, and with tabs the tab stop behind it, is a machine word. -/
def InWords (t : AlignTable) (style : Style) : Prop :=
  ∀ m start width, t.measure? m = some ⟨start, some width⟩ → start + width < Word.limit ∧
    (style.indentsWithSpaces = false → style.tabStopPast (start + width) < Word.limit)

variable {t : AlignTable} {style : Style} {m : MemberRef} {x : Measure}

/-! ## Paddings -/

/-- The padding between an end and the column of the group. -/
def paddingTo (style : Style) (column stop : Nat) : Padding :=
  if style.indentsWithSpaces then .spaces (column - stop)
  else .tabs (style.tabStopPast column / style.indent.tabSize - stop / style.indent.tabSize)

theorem length_stops (g : AlignGroup) : g.stops.length = g.members.countP (·.width.isSome) := by
  rw [AlignGroup.stops, length_filterMap_eq_countP, Array.countP_toList]
  congr 1
  funext x
  exact Option.isSome_map

variable {g : AlignGroup}

theorem mem_stops {stop : Nat} :
    stop ∈ g.stops ↔ ∃ (i start width : Nat), g.members[i]? = some ⟨start, some width⟩ ∧
      stop = start + width := by
  rw [AlignGroup.stops, mem_filterMap]
  constructor
  · rintro ⟨⟨start, width⟩, hmem, hstop⟩
    obtain ⟨i, hi⟩ := Array.mem_iff_getElem?.mp (Array.mem_toList_iff.mp hmem)
    obtain ⟨width, rfl, rfl⟩ := Option.map_eq_some_iff.mp hstop
    exact ⟨i, start, width, hi, rfl⟩
  · rintro ⟨i, start, width, hi, rfl⟩
    exact ⟨_, Array.mem_toList_iff.mpr (Array.mem_of_getElem? hi), rfl⟩

/-- The `column` of a group is the widest of the `stops` of its members. -/
theorem max?_stops (hg : t.groups[m.group]? = some g) (hne : g.stops ≠ []) :
    g.stops.max? = some (t.column m.group) := by
  rw [column, hg, Option.bind_some]
  cases hmax : g.stops.max? with
  | none => exact absurd (max?_eq_none_iff.mp hmax) hne
  | some widest => rfl

/-- `padding?` of a member by its group. -/
theorem padding?_finalize_of_group (hg : t.groups[m.group]? = some g) :
    t.finalize.padding? m style = if g.isEnabled style ∧ 2 ≤ g.stops.length then
      (g.members[m.member]?.bind Measure.stop?).map (paddingTo style (t.column m.group)) else none := by
  have hkind : g.fix.isEnabled style = g.isEnabled style := rfl
  have hmembers : g.fix.members = g.members := rfl
  have hwidest : g.fix.widest = if 2 ≤ g.stops.length then some (t.column m.group) else none := by
    refine ite_congr rfl (fun htwo => max?_stops hg ?_) fun _ => rfl
    exact ne_nil_of_length_pos (by omega)
  rw [padding?, finalize, Array.getElem?_map, hg]
  simp only [Option.map_some, Option.bind_eq_bind, Option.bind_some, hkind, hmembers, hwidest]
  cases g.isEnabled style with
  | false => simp
  | true =>
    by_cases htwo : 2 ≤ g.stops.length
    · cases g.members[m.member]? with
      | none => simp [htwo]
      | some x =>
        cases hstop : x.stop? with
        | none => simp [htwo, hstop]
        | some stop =>
          have hspaces : (style.indent.expandTabs || style.indent.tabSize == 0) =
              style.indentsWithSpaces := rfl
          rw [hspaces]
          cases h : style.indentsWithSpaces with
          | true => simp [htwo, hstop, paddingTo, h]
          | false => simp [htwo, hstop, paddingTo, Style.tabStopPast, h]
    · simp [htwo]

/-- `padding?` is there if the member is `LinedUp`, and then leads to the `column` of the group. -/
theorem padding?_finalize_eq_some_iff {p : Padding} :
    t.finalize.padding? m style = some p ↔ ∃ start width, t.LinedUp style m start width ∧
      p = paddingTo style (t.column m.group) (start + width) := by
  cases hg : t.groups[m.group]? with
  | none => simp [padding?, finalize, LinedUp, hg]
  | some g =>
    rw [padding?_finalize_of_group hg]
    constructor
    · intro h
      split at h
      · next hboth =>
        obtain ⟨stop, hstop, rfl⟩ := Option.map_eq_some_iff.mp h
        obtain ⟨⟨start, width⟩, hx, hstop⟩ := Option.bind_eq_some_iff.mp hstop
        obtain ⟨width, rfl, rfl⟩ := Option.map_eq_some_iff.mp hstop
        exact ⟨start, width, ⟨g, hg, hboth.1, hx, length_stops g ▸ hboth.2⟩, rfl⟩
      · cases h
    · rintro ⟨start, width, ⟨g', hg', henabled, hx, htwo⟩, rfl⟩
      cases hg.symm.trans hg'
      rw [if_pos ⟨henabled, length_stops g ▸ htwo⟩, hx]
      rfl

/-- The `column` of a group is the widest end of the members that are `LinedUp`. -/
theorem isGreatest_column {start width : Nat} (h : t.LinedUp style m start width) :
    IsGreatest {stop | ∃ m' start' width', m'.group = m.group ∧ t.LinedUp style m' start' width' ∧
      stop = start' + width'} (t.column m.group) := by
  obtain ⟨g, hg, henabled, hx, htwo⟩ := h
  have hmem : start + width ∈ g.stops := mem_stops.mpr ⟨_, _, _, hx, rfl⟩
  obtain ⟨hwidest, hle⟩ := max?_eq_some_iff.mp (max?_stops hg (ne_nil_of_mem hmem))
  constructor
  · obtain ⟨i, start', width', hi, hstop⟩ := mem_stops.mp hwidest
    exact ⟨⟨m.group, i⟩, start', width', rfl, ⟨g, hg, henabled, hi, htwo⟩, hstop⟩
  · rintro _ ⟨m', start', width', hgroup, ⟨g', hg', -, hx', -⟩, rfl⟩
    rw [hgroup] at hg'
    cases hg.symm.trans hg'
    exact hle _ (mem_stops.mpr ⟨_, _, _, hx', rfl⟩)

/-- The `column` of a group is the end of a member, so that it is a machine word if these are. -/
theorem InWords.column (hwords : t.InWords style) {start width : Nat}
    (h : t.LinedUp style m start width) : t.column m.group < Word.limit ∧
      (style.indentsWithSpaces = false → style.tabStopPast (t.column m.group) < Word.limit) := by
  obtain ⟨⟨m', start', width', -, ⟨g, hg, -, hx, -⟩, hcolumn⟩, -⟩ := isGreatest_column h
  rw [hcolumn]
  exact hwords m' start' width' (by rw [measure?, hg, Option.bind_some, hx])

/-- Tabs lead from any end that is not behind a column to its `tabStopPast`. -/
theorem tabs_reach {column stop : Nat} (htab : 0 < style.indent.tabSize) (hle : stop ≤ column) :
    ∃ n, style.tabStopPast column / style.indent.tabSize - stop / style.indent.tabSize = n ∧ 1 ≤ n ∧
      stop / style.indent.tabSize + n = style.tabStopPast column / style.indent.tabSize ∧
      style.columnAfter stop (Text.repeated '\t' n) = style.tabStopPast column := by
  have hstops : style.tabStopPast column / style.indent.tabSize = column / style.indent.tabSize + 1 :=
    Nat.mul_div_cancel _ htab
  have hdiv : stop / style.indent.tabSize ≤ column / style.indent.tabSize :=
    Nat.div_le_div_right hle
  obtain ⟨k, hk⟩ := Nat.exists_eq_add_of_le hdiv
  refine ⟨k + 1, ?_, Nat.le_add_left 1 k, ?_, ?_⟩
  · omega
  · omega
  · rw [Style.columnAfter_tabs htab, Style.tabStopPast, hk, Nat.add_assoc]

/-- Whatever was done to a table before it is finalized, a member has a padding exactly if its group
is there and enabled, its text has a width and so has the text of another member.  As long as the
ends of the members are machine words, the paddings lead the members of a group to one column, and no
sum wraps around and no difference is cut off at zero: with spaces to the widest of their ends, and
else by at least one tab to the first tab stop behind it. -/
theorem padding?_ofOps (ops : List Op) (style : Style) (hwords : (ofOps ops).InWords style)
    (m : MemberRef) :
    let t := ofOps ops
    let tab := style.indent.tabSize
    ((t.finalize.padding? m style).isSome = true ↔
      ∃ start width, t.LinedUp style m start width) ∧
    ∀ start width, t.LinedUp style m start width →
      IsGreatest {stop | ∃ m' start' width', m'.group = m.group ∧
        t.LinedUp style m' start' width' ∧ stop = start' + width'} (t.column m.group) ∧
      t.column m.group < Word.limit ∧
      if style.indent.expandTabs = true ∨ tab = 0 then
        ∃ n, t.finalize.padding? m style = some (.spaces n) ∧ start + width + n = t.column m.group
      else ∃ n target, t.finalize.padding? m style = some (.tabs n) ∧ 1 ≤ n ∧
        (start + width) / tab + n = target / tab ∧
        style.columnAfter (start + width) (Text.repeated '\t' n) = target ∧
        IsLeast {stop | tab ∣ stop ∧ t.column m.group < stop} target ∧ target < Word.limit := by
  intro t tab
  refine ⟨?_, fun start width h => ?_⟩
  · rw [Option.isSome_iff_exists]
    constructor
    · rintro ⟨p, hp⟩
      obtain ⟨start, width, h, -⟩ := padding?_finalize_eq_some_iff.mp hp
      exact ⟨start, width, h⟩
    · rintro ⟨start, width, h⟩
      exact ⟨_, padding?_finalize_eq_some_iff.mpr ⟨start, width, h, rfl⟩⟩
  · have hgreatest := isGreatest_column h
    have hle : start + width ≤ t.column m.group := hgreatest.2 ⟨m, start, width, rfl, h, rfl⟩
    have hpadding := padding?_finalize_eq_some_iff.mpr ⟨start, width, h, rfl⟩
    obtain ⟨hcolumn, htarget⟩ := hwords.column h
    refine ⟨hgreatest, hcolumn, ?_⟩
    split
    · next hspaces =>
      refine ⟨_, hpadding.trans (congrArg some (if_pos ?_)), Nat.add_sub_cancel' hle⟩
      simpa [Style.indentsWithSpaces] using hspaces
    · next hspaces =>
      have htabs : style.indentsWithSpaces = false := by simpa [Style.indentsWithSpaces] using hspaces
      have hpos : 0 < tab := Nat.pos_of_ne_zero (not_or.mp hspaces).2
      obtain ⟨n, hn, hone, hsum, hreach⟩ := tabs_reach hpos hle
      refine ⟨n, _, hpadding.trans ?_, hone, hsum, hreach, Style.isLeast_tabStopPast hpos _,
        htarget htabs⟩
      rw [paddingTo, htabs, if_neg Bool.false_ne_true, hn]

/-- Tabs of four columns, two members of which one is measured again, one without a width, and one
for a group that is not there.  The widest text ends on a tab stop, and still gets a tab. -/
theorem padding?_ofOps_tabs :
    let t := ofOps [.newGroup .assignment, .addMember 0 (some 2), .addMember 0 (some 3),
      .addMember 0 none, .addMember 1 (some 9), .setMeasure ⟨0, 1⟩ ⟨4, some 4⟩]
    let style : Style :=
      { indent := { expandTabs := false, tabSize := 4 }, align := { groupAssignments := true } }
    t.InWords style ∧ t.LinedUp style ⟨0, 0⟩ 0 2 ∧ t.LinedUp style ⟨0, 1⟩ 4 4 ∧
      (¬ ∃ start width, t.LinedUp style ⟨0, 2⟩ start width) ∧
      t.finalize.padding? ⟨0, 0⟩ style = some (.tabs 3) ∧ 2 / 4 + 3 = 12 / 4 ∧
        style.columnAfter 2 (Text.repeated '\t' 3) = 12 ∧ IsLeast {stop | 4 ∣ stop ∧ 8 < stop} 12 := by
  intro t style
  have hwords : t.InWords style := by
    rintro ⟨group, member⟩ start width h
    match group, member, h with
    | 0, 0, h | 0, 1, h => cases h; decide
    | 0, 2, h | 0, _ + 3, h => cases h
  have hfirst : t.LinedUp style ⟨0, 0⟩ 0 2 := ⟨_, rfl, rfl, rfl, by decide⟩
  have hcolumn : t.column 0 = 8 := by decide
  have hspec (m : MemberRef) := padding?_ofOps [.newGroup .assignment, .addMember 0 (some 2),
    .addMember 0 (some 3), .addMember 0 none, .addMember 1 (some 9),
    .setMeasure ⟨0, 1⟩ ⟨4, some 4⟩] style hwords m
  refine ⟨hwords, hfirst, ⟨_, rfl, rfl, rfl, by decide⟩, fun h => ?_, ?_⟩
  · exact absurd ((hspec ⟨0, 2⟩).1.mpr h) (by decide +kernel)
  · obtain ⟨-, -, n, target, hpadding, -, hsum, hreach, hleast, -⟩ := (hspec ⟨0, 0⟩).2 0 2 hfirst
    have hthree : t.finalize.padding? ⟨0, 0⟩ style = some (.tabs 3) := by decide +kernel
    obtain rfl := Padding.tabs.inj (Option.some.inj (hpadding.symm.trans hthree))
    obtain rfl : target = 12 := hreach.symm.trans (by decide)
    exact ⟨hpadding, hsum, hreach, hcolumn ▸ hleast⟩

end AlignTable

end CodeLayout
