import CodeLayout.Proofs.Edit.Apply

/-!
# What edits make of a text

`Rewrites as cs es ds` says that the edits `es` make `ds` out of the characters `cs`, which stand
behind `as`.  Edits one behind the other always make something of a text (`Within.rewrites`), and
that is what applying them answers (`Within.apply_eq`).

An edit that is cut into runs makes the same of a text as the edit itself, whatever runs its old and
its new text have (`Rewrites.replaceRuns`).  So it does not matter which edits a template cuts up
(`Within.apply_finish_template`).
-/

namespace CodeLayout.Edit

open List
open Text (sizeOfChars sizeOfChars_append)

/-- Behind the characters `as`, the edits make `ds` out of `cs`. -/
inductive Rewrites : (as cs : List Char) → List Edit → (ds : List Char) → Prop
  | nil {a cs : List Char} : Rewrites a cs [] cs
  | edit {a cs ds : List Char} {es : List Edit} (kept old new : List Char) :
      Rewrites (a ++ kept ++ old) cs es ds →
      Rewrites a (kept ++ old ++ cs)
        (⟨sizeOfChars (a ++ kept), sizeOfChars old, String.ofList new⟩ :: es)
        (kept ++ new ++ ds)

namespace Rewrites

variable {source : String} {a bs cs ds : List Char} {es : List Edit}

/-- `Rewrites` keeps characters before the first edit. -/
theorem keep (h : Rewrites (a ++ bs) cs es ds) : Rewrites a (bs ++ cs) es (bs ++ ds) := by
  cases h with
  | nil => exact .nil
  | @edit _ cs ds es kept old new h =>
    have hedit := Rewrites.edit (a := a) (bs ++ kept) old new
      (by simpa only [append_assoc] using h)
    simpa only [append_assoc] using hedit

/-- `Rewrites` with an edit at the place where the text starts. -/
theorem here (old new : List Char) (h : Rewrites (a ++ old) cs es ds) :
    Rewrites a (old ++ cs) (⟨sizeOfChars a, sizeOfChars old, String.ofList new⟩ :: es)
      (new ++ ds) := by
  have hedit := Rewrites.edit [] old new (by simpa using h)
  simpa using hedit

/-- `applyFrom` answers what the edits make of the text by `Rewrites`. -/
theorem applyFrom_eq (h : Rewrites a cs es ds) (hsource : source.toList = a ++ cs) :
    applyFrom source (sizeOfChars a) es = .ok (String.ofList ds) := by
  induction h with
  | nil => exact congrArg Except.ok (Text.after_of_toList hsource)
  | @edit a cs ds es kept old new _ ih =>
    have hkept : source.toList = a ++ kept ++ (old ++ cs) := by
      simpa only [append_assoc] using hsource
    have hold : source.toList = a ++ kept ++ old ++ cs := by
      simpa only [append_assoc] using hsource
    have hslice := Text.slice_of_toList hkept
    have hold? := Text.slice?_of_toList hold
    have hrest := ih hold
    rw [← sizeOfChars_append] at hslice
    rw [sizeOfChars_append (a ++ kept)] at hrest
    have hlt : ¬ sizeOfChars (a ++ kept) < sizeOfChars a := by
      rw [sizeOfChars_append]
      omega
    rw [applyFrom, old?, stop]
    dsimp only
    rw [hold?, if_neg (by simp), if_neg hlt, hslice, hrest]
    show Except.ok (_ ++ _ ++ _) = _
    rw [← String.ofList_append, ← String.ofList_append]

/-- `replaceRuns` makes the new runs out of the old ones. -/
theorem replaceRuns (old new : List (List Char)) (h : Rewrites (a ++ old.flatten) cs es ds) :
    Rewrites a (old.flatten ++ cs) (Edit.replaceRuns (sizeOfChars a) old new ++ es)
      (new.flatten ++ ds) := by
  induction old generalizing a new with
  | nil =>
    rw [flatten_nil, append_nil] at h
    cases new with
    | nil => exact h
    | cons n new =>
      -- the runs left over are put in at once
      exact here [] _ (by rwa [append_nil])
  | cons o old ih =>
    rw [flatten_cons, ← append_assoc] at h
    have hrest (new : List (List Char)) := ih new h
    simp only [sizeOfChars_append] at hrest
    rw [flatten_cons, append_assoc]
    cases new with
    | nil => exact here o [] (hrest [])
    | cons n new =>
      rw [Edit.replaceRuns, flatten_cons, append_assoc]
      split
      · next heq =>
        -- equal runs need no edit
        rw [← eq_of_beq heq]
        exact (hrest new).keep
      · exact here o n (hrest new)

/-- `splitRuns` of some of the edits changes nothing of what they make. -/
theorem split (h : Rewrites a cs es ds) (hsource : source.toList = a ++ cs)
    (cut : Edit → Bool) :
    Rewrites a cs (es.flatMap fun e => if cut e then splitRuns source e else [e]) ds := by
  induction h with
  | nil => exact .nil
  | @edit a cs ds es kept old new h ih =>
    have hold : source.toList = a ++ kept ++ old ++ cs := by
      simpa only [append_assoc] using hsource
    have hrest := ih hold
    rw [flatMap_cons]
    split
    · have hold? : old? ⟨sizeOfChars (a ++ kept), sizeOfChars old, String.ofList new⟩
          source = some (String.ofList old) := Text.slice?_of_toList hold
      have hruns := replaceRuns (a := a ++ kept) (runs old) (runs new)
        (by rw [flatten_runs]; exact hrest)
      rw [flatten_runs, flatten_runs] at hruns
      rw [splitRuns, hold?]
      dsimp only
      rw [String.toList_ofList, String.toList_ofList, append_assoc, append_assoc]
      exact hruns.keep
    · exact .edit kept old new hrest

end Rewrites

section Within

variable {source : String} {a c : List Char} {es : List Edit} {hi : Nat}

/-- Edits `Within` a source make something of it by `Rewrites`. -/
theorem Within.rewrites (h : Within source (sizeOfChars a) hi es)
    (hsource : source.toList = a ++ c) : ∃ ds, Rewrites a c es ds := by
  induction es generalizing a c with
  | nil => exact ⟨c, .nil⟩
  | cons e es ih =>
    obtain ⟨hslice, hslices⟩ := forall_mem_cons.mp h.slices
    obtain ⟨hbehind, hordered⟩ := pairwise_cons.mp h.ordered
    obtain ⟨before, old, behind, hcut, hoffset, hstop⟩ := Text.exists_toList_of_slice? hslice
    have habove := h.above e mem_cons_self
    rw [hoffset] at habove
    rw [append_assoc] at hcut
    obtain ⟨kept, rfl, rfl⟩ := Text.append_split_of_size_le (hsource.symm.trans hcut) habove
    obtain ⟨ds, hds⟩ := ih (a := a ++ kept ++ old)
      ⟨hslices, fun d hd => hstop ▸ hbehind d hd, (forall_mem_cons.mp h.below).2, hordered⟩
      (by rw [hcut, append_assoc (a ++ kept)])
    have hlength : e.length = sizeOfChars old := by
      rw [Edit.stop, hoffset, sizeOfChars_append (a ++ kept)] at hstop
      omega
    have hedit := Rewrites.edit kept old e.text.toList hds
    rw [← hoffset, ← hlength, String.ofList_toList, append_assoc] at hedit
    exact ⟨_, hedit⟩

/-- `apply` answers what edits `Within` a source make of it by `Rewrites`. -/
theorem Within.apply_eq {ds : List Char} (h : Within source 0 hi es)
    (hds : Rewrites [] source.toList es ds) : apply source es = .ok (String.ofList ds) := by
  rw [apply, h.sorted_eq]
  exact hds.applyFrom_eq rfl

/-- The template of `finish` does not matter for the text that `apply` answers. -/
theorem Within.apply_finish_template (h : Within source 0 hi es) (range : Option Span)
    (region : Span) : ∃ t, apply source (Edit.finish source range (some region) es) = .ok t ∧
      apply source (Edit.finish source range none es) = .ok t := by
  have hwhole := h.finish range none
  obtain ⟨ds, hds⟩ := hwhole.rewrites (a := []) (c := source.toList) rfl
  refine ⟨String.ofList ds, (h.finish range (some region)).apply_eq ?_, hwhole.apply_eq hds⟩
  have hsplit := hds.split rfl fun e => region.start ≤ e.offset && e.stop ≤ region.stop
  rw [Edit.finish, flatMap_singleton'] at hsplit
  exact hsplit

end Within

end CodeLayout.Edit
