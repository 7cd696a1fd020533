import CodeLayout.Proofs.Annotate.Members
import CodeLayout.Proofs.Format.Literals
import CodeLayout.Proofs.Render.Operator
import CodeLayout.Proofs.Stream.Padding

/-!
# Where aligned operators stand

The measures of a group are taken in a pass that lines nothing up.  The padding of an operator makes
up for the measure of its own text; what the second pass moves in front of that text is not
measured, and moves the operator, too.
-/

namespace CodeLayout

open List

namespace AlignTable

/-! ## Measures -/

variable {t : AlignTable} {m : MemberRef} {x : Measure}

theorem kindOf?_setMeasure (t : AlignTable) (m : MemberRef) (x : Measure) (group : Nat) :
    (t.setMeasure m x).kindOf? group = t.kindOf? group := by
  unfold setMeasure
  split
  · rfl
  · next g hg =>
    rw [kindOf?, kindOf?, Array.getElem?_setIfInBounds]
    split
    · next heq =>
      subst heq
      rw [if_pos (Array.getElem?_eq_some_iff.mp hg).1, hg]
      rfl
    · rfl

/-- `measure?` finds what `setMeasure` has set. -/
theorem measure?_setMeasure_self (h : (t.measure? m).isSome = true) :
    (t.setMeasure m x).measure? m = some x := by
  obtain ⟨y, hy⟩ := Option.isSome_iff_exists.mp h
  obtain ⟨g, hg, hmember⟩ := Option.bind_eq_some_iff.mp hy
  have hgroup := (Array.getElem?_eq_some_iff.mp hg).1
  have hsize := (Array.getElem?_eq_some_iff.mp hmember).1
  rw [setMeasure, hg]
  simp [measure?, hgroup, hsize]

/-- `setMeasure` keeps the measures of the other members. -/
theorem measure?_setMeasure_of_ne {m' : MemberRef} (h : m' ≠ m) :
    (t.setMeasure m' x).measure? m = t.measure? m := by
  unfold setMeasure
  split
  · rfl
  · next g hg =>
    rw [measure?, measure?, Array.getElem?_setIfInBounds]
    split
    · next hgroup =>
      have hmember : m'.member ≠ m.member := fun hmember => h (by
        cases m; cases m'; simp_all)
      rw [if_pos (Array.getElem?_eq_some_iff.mp hg).1, ← hgroup, hg]
      simp [hmember]
    · rfl

theorem kindOf?_foldl_setMeasure (l : List (MemberRef × Measure)) (t : AlignTable) (group : Nat) :
    (l.foldl (fun t m => t.setMeasure m.1 m.2) t).kindOf? group = t.kindOf? group := by
  induction l generalizing t with
  | nil => rfl
  | cons e l ih => rw [foldl_cons, ih, kindOf?_setMeasure]

/-- `measure?` of a member that is measured once is that measure. -/
theorem measure?_foldl_setMeasure {l : List (MemberRef × Measure)}
    (hm : (t.measure? m).isSome = true) (hl : l.filter (·.1 == m) = [(m, x)]) :
    (l.foldl (fun t m => t.setMeasure m.1 m.2) t).measure? m = some x := by
  have hothers {l : List (MemberRef × Measure)} (hl : l.filter (·.1 == m) = []) (t : AlignTable) :
      (l.foldl (fun t m => t.setMeasure m.1 m.2) t).measure? m = t.measure? m := by
    induction l generalizing t with
    | nil => rfl
    | cons e l ih =>
      have hne : e.1 ≠ m := by simpa using filter_eq_nil_iff.mp hl e mem_cons_self
      rw [filter_cons_of_neg (by simpa using hne)] at hl
      rw [foldl_cons, ih hl, measure?_setMeasure_of_ne hne]
  induction l generalizing t with
  | nil => cases hl
  | cons e l ih =>
    rw [foldl_cons]
    by_cases he : e.1 = m
    · rw [filter_cons_of_pos (by simpa using he)] at hl
      obtain ⟨rfl, hrest⟩ := List.cons.inj hl
      rw [hothers hrest, measure?_setMeasure_self hm]
    · rw [filter_cons_of_neg (by simpa using he)] at hl
      exact ih (by rwa [measure?_setMeasure_of_ne he]) hl

/-! ## Columns -/

theorem isEnabled_congr {t' : AlignTable} {group : Nat} (h : t.kindOf? group = t'.kindOf? group)
    (style : Style) : t.isEnabled group style = t'.isEnabled group style := by
  have hkind (t : AlignTable) : t.isEnabled group style =
      (t.kindOf? group).any fun kind => ({ kind } : AlignGroup).isEnabled style := by
    rw [isEnabled, kindOf?, Option.any_map]
    rfl
  rw [hkind, hkind, h]

theorem isSome_measure? (h : m.member < t.memberCount m.group) : (t.measure? m).isSome = true := by
  unfold memberCount at h
  split at h
  · cases h
  · next g hg => simp [measure?, hg, h]

/-- The text of a member ends at the `column` of its group or before it, and `padding?` is what is
missing.  If no other member has an end, there is no padding, and nothing is missing. -/
theorem padding?_finalize {style : Style} {stop : Nat} (hspaces : style.indent.expandTabs = true)
    (henabled : t.isEnabled m.group style = true) (hx : t.measure? m = some x)
    (hstop : x.stop? = some stop) :
    stop ≤ t.column m.group ∧
      (t.finalize.padding? m style = some (.spaces (t.column m.group - stop)) ∨
        t.finalize.padding? m style = none ∧ t.column m.group = stop) := by
  obtain ⟨g, hg, hmember⟩ := Option.bind_eq_some_iff.mp hx
  rw [isEnabled, hg, Option.any_some] at henabled
  have hmem : stop ∈ g.stops :=
    mem_filterMap.mpr ⟨x, Array.mem_toList_iff.mpr (Array.mem_of_getElem? hmember), hstop⟩
  have hwidest := max?_stops hg (ne_nil_of_mem hmem)
  refine ⟨(max?_eq_some_iff.mp hwidest).2 stop hmem, ?_⟩
  rw [padding?_finalize_of_group hg, hmember, Option.bind_some, hstop]
  by_cases htwo : 2 ≤ g.stops.length
  · simp [henabled, htwo, paddingTo, Style.indentsWithSpaces, hspaces]
  · refine .inr ⟨if_neg (by simp [htwo]), ?_⟩
    obtain ⟨e, he⟩ : ∃ e, g.stops = [e] := by
      have hpos := length_pos_of_mem hmem
      exact length_eq_one_iff.mp (by omega)
    rw [he, mem_singleton] at hmem
    rw [he] at hwidest
    rw [hmem]
    exact (Option.some.inj hwidest).symm

/-- `padding?` is none for a member whose text has no end. -/
theorem padding?_finalize_of_broken (hx : t.measure? m = some x) (hstop : x.stop? = none)
    (style : Style) : t.finalize.padding? m style = none := by
  obtain ⟨g, hg, hmember⟩ := Option.bind_eq_some_iff.mp hx
  simp [padding?_finalize_of_group hg, hmember, hstop]

end AlignTable

/-! ## Operators in texts -/

variable {stream : ItemStream}

/-- The groups with the measures that a pass has taken. -/
def ItemStream.table (s : ItemStream) (measures : List (MemberRef × Measure)) : AlignTable :=
  measures.foldl (fun t m => t.setMeasure m.1 m.2) s.groups

/-- The `spaces` before an operator, where its member has been measured once, fill up to the
`column` of the group, if the text of the member has an end. -/
theorem ItemStream.spaces_liningPass {style : Style} {measures : List (MemberRef × Measure)}
    {m : MemberRef} {x : Measure} (hspaces : style.indent.expandTabs = true)
    (henabled : stream.groups.isEnabled m.group style = true)
    (hm : m.member < stream.groups.memberCount m.group) (hx : measures.filter (·.1 == m) = [(m, x)])
    (source : String) (n : Nat) :
    ∃ k, ((stream.liningPass style source false measures).spaces (some m) n).toList =
        List.replicate (k + n) ' ' ∧
      (x.stop? = none → k = 0) ∧
      ∀ stop, x.stop? = some stop → stop + k = (stream.table measures).column m.group := by
  have hkind : (stream.table measures).kindOf? m.group = stream.groups.kindOf? m.group :=
    AlignTable.kindOf?_foldl_setMeasure measures stream.groups m.group
  rw [← AlignTable.isEnabled_congr hkind] at henabled
  have hmeasure : (stream.table measures).measure? m = some x :=
    AlignTable.measure?_foldl_setMeasure (AlignTable.isSome_measure? hm) hx
  have hpass : (some m).bind (stream.liningPass style source false measures).padding =
      (stream.table measures).finalize.padding? m style := rfl
  rw [Render.Pass.spaces, hpass]
  cases hstop : x.stop? with
  | none =>
    rw [AlignTable.padding?_finalize_of_broken hmeasure hstop]
    exact ⟨0, by rw [Nat.zero_add]; exact Text.toList_repeated _ _, fun _ => rfl, by simp⟩
  | some stop =>
    obtain ⟨hle, hpadding⟩ := AlignTable.padding?_finalize hspaces henabled hmeasure hstop
    refine ⟨(stream.table measures).column m.group - stop, ?_, by simp, ?_⟩
    · rcases hpadding with h | ⟨h, hcolumn⟩
      · rw [h]
        exact Text.toList_repeated _ _
      · rw [h, hcolumn, Nat.sub_self, Nat.zero_add]
        exact Text.toList_repeated _ _
    · rintro _ ⟨rfl⟩
      exact Nat.add_sub_cancel' hle

theorem ItemStream.length_marksOf (s : ItemStream) (m : MemberRef) :
    (s.marksOf m).length = s.items.toList.countP (·.kind.isMarkOf m) := by
  rw [marksOf, kinds, ← countP_eq_length_filter, countP_map]
  rfl

/-- Every member of an alignment group has an operator, or has no marks.  With spaces, both passes put
a plain operator somewhere (`Pass.Stand`), and unless its line is broken right before it, it stands
behind the text of its member, its own space and a padding.  The padding leads from the end of that
text to the widest end of its group, both as the first pass has measured them, and is empty if the
first pass has broken that text.  So the operator is moved from the widest end by as much as the
second pass has moved the end of the text before it. -/
theorem format_operators {source : String} {parsed : Parsed}
    (h : Parsed.ofSource source = .ok parsed) (herrors : parsed.errors = []) (style : Style)
    (hspaces : style.indent.expandTabs = true) :
    ∃ stream first final t, annotate source parsed style = .ok stream ∧
      (stream.measuringPass style source false).render stream.items.toList = .ok first ∧
      (stream.liningPass style source false first.measures).render stream.items.toList = .ok final ∧
      format source style = .ok t ∧ t.toList = final.output ∧
      (∀ m : MemberRef, m.member < stream.groups.memberCount m.group →
        stream.marksOf m = [] ∨ ∃ o : Operator stream.items.toList, o.member = m) ∧
      ∀ o : Operator stream.items.toList, stream.groups.isEnabled o.member.group style = true →
        o.Plain →
        Nonempty ((stream.measuringPass style source false).Stand first o) ∧
        Nonempty ((stream.liningPass style source false first.measures).Stand final o) ∧
        ∀ (q₁ : (stream.measuringPass style source false).Stand first o)
          (q : (stream.liningPass style source false first.measures).Stand final o),
          '\n' ∈ q.gap.new.toList ∨
          (style.columnOf q.upToSign : Int) =
            style.columnOf q.upToText + Render.spaceIf (style.spaceAround o.kind) +
              if '\n' ∈ q₁.text then 0
              else (stream.table first.measures).column o.member.group - style.columnOf q₁.upToText := by
  obtain ⟨stream, hannotate, hmarks⟩ := annotate_marksOf h herrors style
  obtain ⟨_, hstream, hsame, hcovers⟩ := streamOf_eq_ok h style
  rw [hannotate, Except.ok.injEq] at hsame
  subst hsame
  obtain ⟨first, final, hfirst, hfinal, hrender⟩ := stream.render_wrote style false hcovers
  refine ⟨stream, first, final, String.ofList final.output, hannotate, hfirst.run, hfinal.run, ?_,
    String.toList_ofList, fun m _ => ?_, fun o henabled hplain => ?_⟩
  · rw [format_eq_rendered, rendered, hstream]
    simp only [bind, Except.bind]
    rw [hrender]
    rfl
  · obtain ⟨xs, hlexes, rfl⟩ := Parsed.ofSource_eq_ok_iff.mp h
    rcases hmarks m with ⟨-, hboth⟩ | ⟨hnone, -⟩
    · exact .inr (Operator.exists_of_marks (seated_of_annotate herrors hannotate) hboth)
    · exact .inl hnone
  · obtain ⟨hcount, hm⟩ : stream.items.toList.countP (·.kind.isMarkOf o.member) ≤ 2 ∧
        o.member.member < stream.groups.memberCount o.member.group := by
      have hpos : 0 < stream.items.toList.countP (·.kind.isMarkOf o.member) :=
        List.countP_pos_iff.mpr ⟨o.start, o.start_mem, o.isMarkOf_start⟩
      rw [← stream.length_marksOf] at hpos ⊢
      rcases hmarks o.member with ⟨hm, hboth⟩ | ⟨hnone, -⟩
      · rw [hboth]
        exact ⟨Nat.le_refl 2, hm⟩
      · rw [hnone] at hpos
        cases hpos
    refine ⟨Render.Pass.nonempty_stand o hplain hcount hfirst.run,
      Render.Pass.nonempty_stand o hplain hcount hfinal.run, fun q₁ q => ?_⟩
    refine q.new_gap.imp_right fun hgap => ?_
    obtain ⟨k, hpadding, hbroken, hwhole⟩ := stream.spaces_liningPass hspaces henabled hm
      q₁.measures_eq source (Render.spaceIf (style.spaceAround o.kind))
    have hgap : q.gap.new.toList = _ := (congrArg String.toList hgap).trans hpadding
    rw [Render.Pass.Stand.upToSign, hgap, Style.columnOf_append_spaces]
    split
    · next hbody =>
        rw [hbroken (q₁.stop_eq.trans (if_pos hbody))]
        omega
    · next hbody =>
        have hcolumn : style.columnOf q₁.upToText + k = _ :=
          hwhole _ (q₁.stop_eq.trans (if_neg hbody))
        omega

/-- Two assignments: the first operator is padded to the end of the longer text. -/
theorem format_operators_assignments :
    let source := "<?php\n\n$a = 1;\n$bbb = 2;\n"
    let style : Style := { align := { groupAssignments := true } }
    ∃ parsed stream first final t, Parsed.ofSource source = .ok parsed ∧ parsed.errors = [] ∧
      annotate source parsed style = .ok stream ∧
      (stream.measuringPass style source false).render stream.items.toList = .ok first ∧
      (stream.liningPass style source false first.measures).render stream.items.toList = .ok final ∧
      format source style = .ok t ∧ t.toList = final.output ∧
      t = "<?php\n\n$a   = 1;\n$bbb = 2;\n" ∧ (stream.table first.measures).column 0 = 4 ∧
      ∃ (o : Operator stream.items.toList)
        (q₁ : (stream.measuringPass style source false).Stand first o)
        (q : (stream.liningPass style source false first.measures).Stand final o),
        o.member = ⟨0, 0⟩ ∧ '\n' ∉ q₁.text ∧ style.columnOf q₁.upToText = 2 ∧
        style.columnOf q.upToText = 2 ∧ style.columnOf q.upToSign = 2 + 1 + (4 - 2) := by
  intro source style
  have hcheck : (Parsed.ofSource source).toOption.any (fun parsed => parsed.errors.isEmpty &&
      (annotate source parsed style).toOption.any fun stream => stream.groups.isEnabled 0 style &&
        ((stream.measuringPass style source false).render stream.items.toList).toOption.any fun first =>
          ((stream.table first.measures).column 0 == 4 &&
          ((stream.liningPass style source false first.measures).render
              stream.items.toList).toOption.any fun final =>
            (Operator.at? stream.items.toList ⟨0, 0⟩ .assign 4 7).any fun o => o.Plain &&
              o.kind == .assign &&
              (Render.Pass.stand? _ first o 3 0 :
                Option ((stream.measuringPass style source false).Stand first o)).any (fun q₁ =>
                  '\n' ∉ q₁.text && style.columnOf q₁.upToText == 2) &&
              (Render.Pass.stand? _ final o 3 0 :
                Option ((stream.liningPass style source false first.measures).Stand final o)).any
                  fun q => '\n' ∉ q.gap.new.toList && style.columnOf q.upToText == 2)) = true := by
    decide +kernel
  have hformat : rendered source style = .ok "<?php\n\n$a   = 1;\n$bbb = 2;\n" := by decide +kernel
  obtain ⟨parsed, hparsed, hcheck⟩ := exists_ok_of_any hcheck
  obtain ⟨herrors, hcheck⟩ := Bool.and_eq_true_iff.mp hcheck
  have herrors : parsed.errors = [] := List.isEmpty_iff.mp herrors
  obtain ⟨stream, first, final, t, hstream, hfirst, hfinal, ht, houtput, -, hoperators⟩ :=
    format_operators hparsed herrors style rfl
  rw [hstream] at hcheck
  obtain ⟨henabled, hcheck⟩ := Bool.and_eq_true_iff.mp hcheck
  rw [hfirst] at hcheck
  obtain ⟨hcolumn, hcheck⟩ := Bool.and_eq_true_iff.mp hcheck
  rw [hfinal] at hcheck
  simp only [Except.toOption, Option.any_some, Bool.and_eq_true, decide_eq_true_eq, beq_iff_eq,
    Option.any_eq_true] at hcheck hcolumn
  obtain ⟨o, ho, ⟨⟨hplain, hkind⟩, q₁, -, hwhole, hstop₁⟩, q, -, hgap, hstop⟩ := hcheck
  have hmember := Operator.member_of_at? ho
  obtain ⟨-, -, haligned⟩ := hoperators o (hmember ▸ henabled) hplain
  have hsign := (haligned q₁ q).resolve_left hgap
  rw [if_neg hwhole, hmember, hcolumn, hstop₁, hstop, hkind] at hsign
  refine ⟨parsed, stream, first, final, t, hparsed, herrors, hstream, hfirst, hfinal, ht, houtput, ?_,
    hcolumn, o, q₁, q, hmember, hwhole, hstop₁, hstop, Int.ofNat.inj hsign⟩
  rw [format_eq_rendered, hformat] at ht
  exact (Except.ok.inj ht).symm

/-- The operators of an array stand in different columns of different lines, each one on the line
where the text of its member starts.  The padding of the assignment moves its first line, but not the
second one. -/
theorem format_moves_operator :
    let source := "<?php\n\n$a = ['x' => 1,\n'yyy' => 2];\n$bbbb = 2;\n"
    let style : Style := { align := { groupAssignments := true, groupArrayInit := true } }
    let t := "<?php\n\n$a    = ['x' => 1,\n    'yyy' => 2];\n$bbbb = 2;\n"
    ∃ parsed stream first final, Parsed.ofSource source = .ok parsed ∧ parsed.errors = [] ∧
      annotate source parsed style = .ok stream ∧
      (stream.measuringPass style source false).render stream.items.toList = .ok first ∧
      (stream.liningPass style source false first.measures).render stream.items.toList = .ok final ∧
      format source style = .ok t ∧ t.toList = final.output ∧
      stream.groups.isEnabled 1 style = true ∧
      ∃ (o o' : Operator stream.items.toList)
        (q : (stream.liningPass style source false first.measures).Stand final o)
        (q' : (stream.liningPass style source false first.measures).Stand final o'),
        (o.member = ⟨1, 0⟩ ∧ o'.member = ⟨1, 1⟩) ∧
        ('\n' ∉ q.text ++ q.gap.new.toList ∧ '\n' ∉ q'.text ++ q'.gap.new.toList) ∧
        (q.upToSign.count '\n' = 2 ∧ q'.upToSign.count '\n' = 3) ∧
        style.columnOf q.upToSign = 13 ∧ style.columnOf q'.upToSign = 10 := by
  intro source style t
  have hcheck : (Parsed.ofSource source).toOption.any (fun parsed => parsed.errors.isEmpty &&
      (annotate source parsed style).toOption.any fun stream => stream.groups.isEnabled 1 style &&
        ((stream.measuringPass style source false).render stream.items.toList).toOption.any fun first =>
          ((stream.liningPass style source false first.measures).render
              stream.items.toList).toOption.any fun final =>
            t.toList == final.output &&
            (Operator.at? stream.items.toList ⟨1, 0⟩ .keyValue 16 19).any (fun o =>
              (Render.Pass.stand? _ final o 9 0 :
                Option ((stream.liningPass style source false first.measures).Stand final o)).any
                  fun q => '\n' ∉ q.text ++ q.gap.new.toList && q.upToSign.count '\n' == 2 &&
                    style.columnOf q.upToSign == 13) &&
            (Operator.at? stream.items.toList ⟨1, 1⟩ .keyValue 30 33).any fun o' =>
              (Render.Pass.stand? _ final o' 17 0 :
                Option ((stream.liningPass style source false first.measures).Stand final o')).any
                  fun q' => '\n' ∉ q'.text ++ q'.gap.new.toList && q'.upToSign.count '\n' == 3 &&
                    style.columnOf q'.upToSign == 10) = true := by
    decide +kernel
  have hformat : rendered source style = .ok t := by decide +kernel
  obtain ⟨parsed, hparsed, hcheck⟩ := exists_ok_of_any hcheck
  obtain ⟨herrors, hcheck⟩ := Bool.and_eq_true_iff.mp hcheck
  obtain ⟨stream, hstream, hcheck⟩ := exists_ok_of_any hcheck
  obtain ⟨henabled, hcheck⟩ := Bool.and_eq_true_iff.mp hcheck
  obtain ⟨first, hfirst, hcheck⟩ := exists_ok_of_any hcheck
  obtain ⟨final, hfinal, hcheck⟩ := exists_ok_of_any hcheck
  simp only [Bool.and_eq_true, decide_eq_true_eq, beq_iff_eq, Option.any_eq_true] at hcheck
  obtain ⟨⟨houtput, o, ho, q, -, ⟨hline, hfeeds⟩, hcolumn⟩, o', ho', q', -, ⟨hline', hfeeds'⟩,
    hcolumn'⟩ := hcheck
  exact ⟨parsed, stream, first, final, hparsed, List.isEmpty_iff.mp herrors, hstream, hfirst, hfinal,
    (format_eq_rendered _ _).trans hformat, houtput, henabled, o, o', q, q',
    ⟨Operator.member_of_at? ho, Operator.member_of_at? ho'⟩, ⟨hline, hline'⟩, ⟨hfeeds, hfeeds'⟩,
    hcolumn, hcolumn'⟩

end CodeLayout
