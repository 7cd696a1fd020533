import CodeLayout.Proofs.Edit.Rewrite
import Mathlib.Data.List.Chain

/-!
# One edit at a time

An edit applies by itself if its stretch lies between two boundaries of the source
(`old?_isSome_iff`).  What it makes of the source stays the same when it is made smaller, and then
nothing is left that it could do without (`minimize?_exact`).

Edits that are applied at once may as well be spliced in one by one (`splice?`), the last one first:
those that stand before the edit that is spliced in do not move (`Rewrites.applyInTurn_eq`).  They are
sorted first, and a list whose edits at each offset come in the same order is sorted the same way
(`eq_of_filter_eq`), so that their order matters only at the same offset (`apply_eq_inTurn`).
-/

namespace CodeLayout.Edit

open List
open Text (isBoundary sizeOfChars sizeOfChars_append)

variable {source : String} {e : Edit} {es : List Edit}

/-! ## A single edit -/

/-- `old?` is there if the edit starts and stops at boundaries. -/
theorem old?_isSome_iff : (e.old? source).isSome = true ↔
    isBoundary source e.offset = true ∧ isBoundary source e.stop = true := by
  refine ⟨Text.isBoundary_of_slice?, fun ⟨hlo, hhi⟩ => ?_⟩
  have hle : e.offset ≤ e.stop := Nat.le_add_right _ _
  simp [old?, Text.slice?, hle, hlo, hhi]

theorem apply_singleton {as old bs : List Char} (new : List Char)
    (h : source.toList = as ++ old ++ bs) :
    apply source [⟨sizeOfChars as, sizeOfChars old, String.ofList new⟩] =
      .ok (String.ofList (as ++ new ++ bs)) := by
  have hedit : Rewrites [] (as ++ old ++ bs) _ _ := .edit as old new .nil
  rw [apply, sorted, mergeSort_singleton]
  exact hedit.applyFrom_eq h

/-- `minimize?` makes the same of the source, within the stretch of its edit, and with the least of
changes; it answers none only if the edit replaces a text by itself. -/
theorem minimize?_exact (hlo : Text.isBoundary source e.offset = true)
    (hhi : Text.isBoundary source e.stop = true) :
    (minimize? source e = none ↔ e.old? source = some e.text) ∧
    ∀ e', minimize? source e = some e' →
      (e.offset ≤ e'.offset ∧ e'.stop ≤ e.stop) ∧
      (Text.isBoundary source e'.offset = true ∧ Text.isBoundary source e'.stop = true) ∧
      (∃ text, apply source [e] = .ok text ∧ apply source [e'] = .ok text) ∧
      ∃ old, e'.old? source = some old ∧ Apart old.toList e'.text.toList := by
  have hslice := old?_isSome_iff.mpr ⟨hlo, hhi⟩
  obtain ⟨old, hold⟩ := Option.isSome_iff_exists.mp hslice
  have hwithin := within_minimize? hslice
  obtain ⟨as, bs, hsource, has, hstop⟩ := Text.slice?_eq_some_iff.mp hold
  have hlength : e.length = sizeOfChars old.toList := by
    rw [Text.sizeOfChars_toList]
    rw [stop] at hstop
    omega
  have heq : e = ⟨sizeOfChars as, sizeOfChars old.toList, String.ofList e.text.toList⟩ := by
    rw [has, ← hlength, String.ofList_toList]
  have happly := apply_singleton e.text.toList hsource
  rw [← heq] at happly
  rcases minimize?_spec hold with ⟨hnone, htext⟩ | ⟨front, cs, ds, back, hcs, hds, hsome, hne, hapart⟩
  · refine ⟨iff_of_true hnone (htext ▸ hold), fun e' he' => ?_⟩
    rw [hnone] at he'
    cases he'
  · refine ⟨iff_of_false (by simp [hsome]) fun hself => ?_, fun e' he' => ?_⟩
    · -- a text in the place of itself leaves nothing to replace
      rw [Option.some.inj (hold.symm.trans hself), hds] at hcs
      exact hne (append_cancel_left (append_cancel_right hcs)).symm
    · rw [he', Option.toList_some] at hwithin
      rw [he'] at hsome
      cases hsome
      have hcut : source.toList = as ++ front ++ cs ++ (back ++ bs) := by
        rw [hsource, hcs]
        simp only [append_assoc]
      have hsmall := apply_singleton ds hcut
      have hold' := Text.slice?_of_toList hcut
      rw [sizeOfChars_append, has] at hsmall hold'
      refine ⟨⟨hwithin.above _ mem_cons_self, hwithin.below _ mem_cons_self⟩,
        old?_isSome_iff.mp (hwithin.slices _ mem_cons_self), ⟨_, happly, ?_⟩, _, hold', ?_⟩
      · rw [hsmall, hds]
        simp only [append_assoc]
      · simpa only [String.toList_ofList] using hapart

/-- In the middle of repeated letters only the new one is put in. -/
theorem minimize?_exact_repeated :
    (∃ text, apply "xéé" [⟨1, 4, "ééé"⟩] = .ok text ∧ apply "xéé" [⟨5, 0, "é"⟩] = .ok text) ∧
      minimize? "xéé" ⟨1, 4, "ééé"⟩ = some ⟨5, 0, "é"⟩ := by
  have hmin : minimize? "xéé" ⟨1, 4, "ééé"⟩ = some ⟨5, 0, "é"⟩ := by decide +kernel
  have hlo : Text.isBoundary "xéé" 1 = true := by decide +kernel
  have hexact := minimize?_exact (e := ⟨1, 4, "ééé"⟩) hlo (by decide +kernel)
  exact ⟨(hexact.2 _ hmin).2.2.1, hmin⟩

/-! ## One after the other -/

/-- Put the text of one edit in the place of its stretch, if that lies between two boundaries. -/
def splice? (source : String) (e : Edit) : Option String :=
  if isBoundary source e.offset && isBoundary source e.stop then
    some (Text.before source e.offset ++ e.text ++ Text.after source e.stop)
  else none

/-- Splice edits in one by one, from the last to the first. -/
def applyInTurn (source : String) (edits : List Edit) : Option String :=
  edits.foldr (fun e text => do splice? (← text) e) (some source)

theorem splice?_of_toList {as old bs : List Char} (new : List Char)
    (h : source.toList = as ++ old ++ bs) :
    splice? source ⟨sizeOfChars as, sizeOfChars old, String.ofList new⟩ =
      some (String.ofList (as ++ new ++ bs)) := by
  have hstop : (⟨sizeOfChars as, sizeOfChars old, String.ofList new⟩ : Edit).stop =
      sizeOfChars (as ++ old) := (sizeOfChars_append as old).symm
  have hfront : source.toList = as ++ (old ++ bs) := by rw [h, append_assoc]
  have hlo := Text.isBoundary_iff.mpr ⟨as, _, hfront, rfl⟩
  have hhi := Text.isBoundary_iff.mpr ⟨as ++ old, bs, h, rfl⟩
  rw [splice?, hstop, hlo, hhi, Text.before_of_toList hfront, Text.after_of_toList h]
  simp [String.ofList_append, String.append_assoc]

/-- `applyInTurn` makes the same of a text as `Rewrites`. -/
theorem Rewrites.applyInTurn_eq {a cs ds : List Char} (h : Rewrites a cs es ds)
    (hsource : source.toList = a ++ cs) :
    applyInTurn source es = some (String.ofList (a ++ ds)) := by
  induction h with
  | nil => rw [← hsource, String.ofList_toList]; rfl
  | @edit a cs ds es kept old new _ ih =>
    rw [applyInTurn, foldr_cons, ← applyInTurn, ih (by rw [hsource]; simp only [append_assoc])]
    have hrest : (String.ofList (a ++ kept ++ old ++ ds)).toList = a ++ kept ++ old ++ ds :=
      String.toList_ofList
    refine (splice?_of_toList _ hrest).trans ?_
    simp only [append_assoc]

/-- `applyFrom` answers if each edit replaces a slice and stops before the next one. -/
theorem isOk_applyFrom_iff {start : Nat} : (applyFrom source start es).isOk = true ↔
    (∀ e ∈ es, (e.old? source).isSome = true) ∧ (∀ e ∈ es.head?, start ≤ e.offset) ∧
      es.IsChain fun d e => d.stop ≤ e.offset := by
  induction es generalizing start with
  | nil => simp [applyFrom, Except.isOk, Except.toBool]
  | cons e es ih =>
    have hrest (front : String) : (do
        let tail ← applyFrom source e.stop es
        return front ++ tail : Except LayoutError String).isOk =
          (applyFrom source e.stop es).isOk := by
      cases applyFrom source e.stop es <;> rfl
    rw [applyFrom]
    split
    · next hnone => simp [Except.isOk, Except.toBool, Option.isNone_iff_eq_none.mp hnone]
    · next hsome =>
      have hslice : (e.old? source).isSome = true := by
        simpa [Option.isSome_iff_ne_none] using hsome
      split
      · next hlt => simp [Except.isOk, Except.toBool, hlt]
      · next hle =>
        rw [hrest, ih, isChain_cons, forall_mem_cons]
        simp only [hslice, true_and, head?_cons, Option.mem_some_iff, forall_eq', Nat.not_lt.mp hle]

/-! ## Sorting -/

theorem sorted_perm (es : List Edit) : (sorted es).Perm es := mergeSort_perm _ _

theorem pairwise_sorted (es : List Edit) : (sorted es).Pairwise fun d e => d.offset ≤ e.offset := by
  have h := @pairwise_mergeSort Edit (fun d e => decide (d.offset ≤ e.offset))
    (fun _ _ _ hab hbc => decide_eq_true ((of_decide_eq_true hab).trans (of_decide_eq_true hbc)))
    (fun d e => by simpa using Nat.le_total d.offset e.offset) es
  exact h.imp of_decide_eq_true

/-- `sorted` keeps the order of the edits at an offset. -/
theorem filter_sorted (es : List Edit) (o : Nat) :
    (sorted es).filter (·.offset == o) = es.filter (·.offset == o) := by
  have hsame : (es.filter (·.offset == o)).Pairwise
      fun d e => decide (d.offset ≤ e.offset) = true := by
    refine pairwise_of_forall_mem_list fun d hd e he => decide_eq_true ?_
    rw [beq_iff_eq.mp (mem_filter.mp hd).2, beq_iff_eq.mp (mem_filter.mp he).2]
  have hsub : es.filter (·.offset == o) <+ sorted es :=
    sublist_mergeSort
      (fun _ _ _ hab hbc => decide_eq_true ((of_decide_eq_true hab).trans (of_decide_eq_true hbc)))
      (fun d e => by simpa using Nat.le_total d.offset e.offset) hsame filter_sublist
  have hfilter := hsub.filter (·.offset == o)
  rw [filter_filter] at hfilter
  simp only [Bool.and_self] at hfilter
  exact (hfilter.eq_of_length ((sorted_perm es).filter _).length_eq.symm).symm

/-- Two lists that are `sorted` by offset are the same if they have the same edits at each one. -/
theorem eq_of_filter_eq {es' : List Edit} (hes : es.Pairwise fun d e => d.offset ≤ e.offset)
    (hes' : es'.Pairwise fun d e => d.offset ≤ e.offset)
    (h : ∀ o, es.filter (·.offset == o) = es'.filter (·.offset == o)) : es = es' := by
  induction es generalizing es' with
  | nil =>
    cases es' with
    | nil => rfl
    | cons e' es' => simpa using h e'.offset
  | cons e es ih =>
    cases es' with
    | nil => simpa using h e.offset
    | cons e' es' =>
      obtain ⟨hle, hrest⟩ := pairwise_cons.mp hes
      obtain ⟨hle', hrest'⟩ := pairwise_cons.mp hes'
      have hmem (d : Edit) : d ∈ e :: es ↔ d ∈ e' :: es' := by
        have := congrArg (d ∈ ·) (h d.offset)
        simpa only [mem_filter, beq_self_eq_true, and_true, eq_iff_iff] using this
      -- each head is among the edits of the other list, so they have the same offset
      have hoffset : e.offset = e'.offset := by
        refine Nat.le_antisymm ?_ ?_
        · rcases mem_cons.mp ((hmem e').mpr mem_cons_self) with rfl | hin
          · exact le_rfl
          · exact hle e' hin
        · rcases mem_cons.mp ((hmem e).mp mem_cons_self) with rfl | hin
          · exact le_rfl
          · exact hle' e hin
      have hhead := h e.offset
      rw [filter_cons_of_pos (by simp), filter_cons_of_pos (by simp [hoffset])] at hhead
      obtain ⟨rfl, -⟩ := cons.inj hhead
      have htail (o : Nat) : es.filter (·.offset == o) = es'.filter (·.offset == o) := by
        have := h o
        simp only [filter_cons] at this
        split at this
        · exact (cons.inj this).2
        · exact this
      rw [ih hrest hrest' htail]

/-- `apply` succeeds exactly on `sorted` edits that stand between boundaries and do not overlap, and
makes of the source what splicing them in from the last to the first makes of it, in whatever order
those with different offsets are given. -/
theorem apply_eq_inTurn (source : String) (edits : List Edit) :
    ((apply source edits).isOk = true ↔
      (∀ e ∈ edits, Text.isBoundary source e.offset = true ∧ Text.isBoundary source e.stop = true) ∧
        (sorted edits).IsChain fun d e => d.stop ≤ e.offset) ∧
    ((apply source edits).isOk = true →
      ∃ text, applyInTurn source (sorted edits) = some text ∧ apply source edits = .ok text) ∧
    ∀ edits', (∀ o, edits'.filter (·.offset == o) = edits.filter (·.offset == o)) →
      apply source edits' = apply source edits := by
  have hok : (apply source edits).isOk = true ↔
      (∀ e ∈ edits, Text.isBoundary source e.offset = true ∧ Text.isBoundary source e.stop = true) ∧
        (sorted edits).IsChain fun d e => d.stop ≤ e.offset := by
    rw [apply, isOk_applyFrom_iff]
    simp only [(sorted_perm edits).mem_iff, old?_isSome_iff, Nat.zero_le, implies_true, true_and]
  refine ⟨hok, fun h => ?_, fun edits' h => ?_⟩
  · obtain ⟨hslices, hchain⟩ := hok.mp h
    have : IsTrans Edit fun d e => d.stop ≤ e.offset :=
      ⟨fun _ b _ hab hbc => hab.trans ((Nat.le_add_right b.offset b.length).trans hbc)⟩
    have hsome (e : Edit) (he : e ∈ sorted edits) : (e.old? source).isSome = true :=
      old?_isSome_iff.mpr (hslices e ((sorted_perm edits).mem_iff.mp he))
    have hwithin : Within source 0 (Text.size source) (sorted edits) := by
      refine ⟨hsome, fun _ _ => Nat.zero_le _, fun e he => ?_, isChain_iff_pairwise.mp hchain⟩
      obtain ⟨as, bs, cs, hcut, -, hstop⟩ := Text.exists_toList_of_slice? (hsome e he)
      rw [hstop, ← Text.sizeOfChars_toList, hcut, sizeOfChars_append (as ++ bs)]
      exact Nat.le_add_right _ _
    obtain ⟨ds, hds⟩ := hwithin.rewrites (a := []) (c := source.toList) rfl
    exact ⟨_, hds.applyInTurn_eq rfl, hds.applyFrom_eq rfl⟩
  · rw [apply, apply]
    congr 1
    refine eq_of_filter_eq (pairwise_sorted _) (pairwise_sorted _) fun o => ?_
    rw [filter_sorted, filter_sorted, h o]

/-- Two edits at one offset keep their order, wherever a third one is given. -/
theorem apply_eq_inTurn_moved :
    applyInTurn "añb" [⟨1, 0, "1"⟩, ⟨1, 2, "2"⟩, ⟨3, 1, "B"⟩] = some "a12B" ∧
      apply "añb" [⟨3, 1, "B"⟩, ⟨1, 0, "1"⟩, ⟨1, 2, "2"⟩] = .ok "a12B" := by
  have hsorted : sorted [⟨1, 0, "1"⟩, ⟨1, 2, "2"⟩, ⟨3, 1, "B"⟩] =
      [⟨1, 0, "1"⟩, ⟨1, 2, "2"⟩, ⟨3, 1, "B"⟩] := mergeSort_of_pairwise (by decide)
  have hturn : applyInTurn "añb" [⟨1, 0, "1"⟩, ⟨1, 2, "2"⟩, ⟨3, 1, "B"⟩] = some "a12B" := by
    decide +kernel
  obtain ⟨-, hsome, hmoved⟩ := apply_eq_inTurn "añb" [⟨1, 0, "1"⟩, ⟨1, 2, "2"⟩, ⟨3, 1, "B"⟩]
  obtain ⟨text, htext, happly⟩ := hsome (by rw [apply, hsorted]; decide +kernel)
  rw [hsorted, hturn] at htext
  cases htext
  refine ⟨hturn, (hmoved _ fun o => ?_).trans happly⟩
  by_cases h1 : 1 = o
  · subst h1
    rfl
  · simp [filter_cons, h1]

end CodeLayout.Edit
