import CodeLayout.Edit.Minimal
import CodeLayout.Proofs.Text.Slices
import CodeLayout.Render.Pass

/-!
# Applying the edits of pieces

A source is cut into pieces, and each piece has a new text.  The pieces that change are answered as
edits, which are made smaller and sorted before they are applied.  None of this matters: the edits
apply, and the result is the new texts one after the other (`apply_finish`).

Edits are `Within` a stretch of a source if they replace slices of it, one behind the other.  Such
edits apply, and they stay such edits when each one is cut up within its own stretch
(`Within.flatMap`): that is all that `finish` does with them.
-/

namespace CodeLayout

open List
open Text (sizeOfChars sizeOfChars_append sizeOfChars_toList)

open Render (Piece)

/-! ## Common ends -/

theorem commonStart_prefix_left (as bs : List Char) : commonStart as bs <+: as := by
  induction as generalizing bs with
  | nil => exact prefix_rfl
  | cons a as ih =>
    cases bs with
    | nil => exact nil_prefix
    | cons b bs =>
      rw [commonStart]
      split
      · exact cons_prefix_cons.mpr ⟨rfl, ih bs⟩
      · exact nil_prefix

theorem commonStart_comm (as bs : List Char) : commonStart as bs = commonStart bs as := by
  induction as generalizing bs with
  | nil => cases bs <;> rfl
  | cons a as ih =>
    cases bs with
    | nil => rfl
    | cons b bs =>
      rw [commonStart, commonStart]
      by_cases h : a = b
      · rw [h, ih bs]
      · rw [if_neg (by simpa using h), if_neg (by simpa using Ne.symm h)]

/-- Two lists are their `commonStart` and what follows it. -/
theorem commonStart_append_drop (as bs : List Char) :
    commonStart as bs ++ as.drop (commonStart as bs).length = as ∧
      commonStart as bs ++ bs.drop (commonStart as bs).length = bs := by
  constructor
  · exact prefix_iff_eq_append.mp (commonStart_prefix_left as bs)
  · rw [commonStart_comm]
    exact prefix_iff_eq_append.mp (commonStart_prefix_left bs as)

/-- Two lists end with the same `back`, the `commonStart` from behind. -/
theorem take_append_commonStart (as bs : List Char) :
    ∃ back, as = as.take (as.length - (commonStart as.reverse bs.reverse).length) ++ back ∧
      bs = bs.take (bs.length - (commonStart as.reverse bs.reverse).length) ++ back := by
  obtain ⟨ha, hb⟩ := commonStart_append_drop as.reverse bs.reverse
  refine ⟨(commonStart as.reverse bs.reverse).reverse, ?_, ?_⟩
  · rw [← reverse_inj, reverse_append, reverse_reverse, ← drop_reverse, ha]
  · rw [← reverse_inj, reverse_append, reverse_reverse, ← drop_reverse, hb]

/-- Behind their `commonStart`, two lists go on differently. -/
theorem head?_drop_commonStart {as bs : List Char} {c : Char}
    (h : (as.drop (commonStart as bs).length).head? = some c) :
    (bs.drop (commonStart as bs).length).head? ≠ some c := by
  induction as generalizing bs with
  | nil => simp at h
  | cons a as ih =>
    cases bs with
    | nil => simp
    | cons b bs =>
      rw [commonStart] at h ⊢
      split at h
      · rw [if_pos (by assumption)]
        exact ih h
      · next hne =>
        rw [if_neg hne]
        simp only [length_nil, drop_zero, head?_cons, Option.some.injEq, beq_iff_eq] at h hne ⊢
        exact fun hb => hne (h.trans (Option.some.inj hb).symm)

/-- Neither the first characters of two lists are the same nor the last ones. -/
structure Apart (as bs : List Char) : Prop where
  head : ∀ c, as.head? = some c → bs.head? ≠ some c
  last : ∀ c, as.getLast? = some c → bs.getLast? ≠ some c

theorem Apart.eq_nil {as : List Char} (h : Apart as as) : as = [] := by
  cases as with
  | nil => rfl
  | cons a as => exact absurd rfl (h.head a rfl)

/-- Lists that start differently are `Apart` without what they have in common at their end. -/
theorem apart_take_drop (as bs : List Char) (hhead : ∀ c, as.head? = some c → bs.head? ≠ some c) :
    Apart (as.take (as.length - (commonStart as.reverse bs.reverse).length))
      (bs.take (bs.length - (commonStart as.reverse bs.reverse).length)) where
  head c ha hb := by
    rw [head?_take, Option.ite_none_left_eq_some] at ha hb
    exact hhead c ha.2 hb.2
  last c ha hb := by
    rw [← head?_reverse, ← drop_reverse] at ha hb
    exact head?_drop_commonStart ha hb

namespace Edit

variable {source old : String} {e : Edit}

/-- `minimize?` leaves out what the old and the new text have in common at both ends, so that what
it replaces is `Apart` from what it puts there. -/
theorem minimize?_spec (hold : e.old? source = some old) :
    (minimize? source e = none ∧ e.text = old) ∨
    ∃ front cs ds back, old.toList = front ++ cs ++ back ∧ e.text.toList = front ++ ds ++ back ∧
      minimize? source e =
        some ⟨e.offset + sizeOfChars front, sizeOfChars cs, String.ofList ds⟩ ∧
      cs ≠ ds ∧ Apart cs ds := by
  obtain ⟨hfront, hfront'⟩ := commonStart_append_drop old.toList e.text.toList
  have hhead := fun c => @head?_drop_commonStart old.toList e.text.toList c
  unfold minimize?
  rw [hold]
  dsimp only [Option.bind_eq_bind, Option.bind_some]
  generalize commonStart old.toList e.text.toList = front at hfront hfront' hhead ⊢
  generalize old.toList.drop front.length = as at hfront hhead ⊢
  generalize e.text.toList.drop front.length = bs at hfront' hhead ⊢
  obtain ⟨back, hback, hback'⟩ := take_append_commonStart as bs
  have hapart := apart_take_drop as bs hhead
  generalize as.take (as.length - (commonStart as.reverse bs.reverse).length) = cs
    at hback hapart ⊢
  generalize bs.take (bs.length - (commonStart as.reverse bs.reverse).length) = ds
    at hback' hapart ⊢
  subst hback hback'
  split
  · next hnil =>
    obtain ⟨hcs, hds⟩ := (Bool.and_eq_true _ _).mp hnil
    rw [List.isEmpty_iff.mp hcs] at hfront
    rw [List.isEmpty_iff.mp hds] at hfront'
    exact .inl ⟨rfl, String.toList_inj.mp (hfront'.symm.trans hfront)⟩
  · next hnil =>
    refine .inr ⟨front, cs, ds, back, ?_, ?_, rfl, ?_, hapart⟩
    · rw [← hfront, append_assoc]
    · rw [← hfront', append_assoc]
    · rintro rfl
      exact hnil (by simp [hapart.eq_nil])

/-! ## Edits within a stretch -/

/-- The edits replace slices of the source between two offsets, one behind the other. -/
structure Within (source : String) (lo hi : Nat) (edits : List Edit) : Prop where
  slices : ∀ e ∈ edits, (e.old? source).isSome = true
  above : ∀ e ∈ edits, lo ≤ e.offset
  below : ∀ e ∈ edits, e.stop ≤ hi
  ordered : edits.Pairwise fun d e => d.stop ≤ e.offset

namespace Within

variable {lo mid hi : Nat} {es es' : List Edit}

theorem nil (source : String) (lo hi : Nat) : Within source lo hi [] :=
  ⟨nofun, nofun, nofun, .nil⟩

theorem singleton (h : (e.old? source).isSome = true) : Within source e.offset e.stop [e] := by
  refine ⟨?_, ?_, ?_, pairwise_singleton _ _⟩
  · intro d hd
    rwa [mem_singleton.mp hd]
  · intro d hd
    rw [mem_singleton.mp hd]
  · intro d hd
    rw [mem_singleton.mp hd]

/-- An edit that replaces a stretch of characters is `Within` that stretch. -/
theorem of_toList {as bs cs : List Char} (h : source.toList = as ++ bs ++ cs) (text : String) :
    Within source (sizeOfChars as) (sizeOfChars as + sizeOfChars bs)
      [⟨sizeOfChars as, sizeOfChars bs, text⟩] := by
  have hold : old? ⟨sizeOfChars as, sizeOfChars bs, text⟩ source =
      some (String.ofList bs) := Text.slice?_of_toList h
  exact singleton (Option.isSome_iff_exists.mpr ⟨_, hold⟩)

theorem mono {lo' hi' : Nat} (h : Within source lo hi es) (hlo : lo' ≤ lo) (hhi : hi ≤ hi') :
    Within source lo' hi' es where
  slices := h.slices
  above e he := hlo.trans (h.above e he)
  below e he := (h.below e he).trans hhi
  ordered := h.ordered

theorem append (h : Within source lo mid es) (h' : Within source mid hi es') (hlo : lo ≤ mid)
    (hhi : mid ≤ hi) : Within source lo hi (es ++ es') where
  slices := forall_mem_append.mpr ⟨h.slices, h'.slices⟩
  above := forall_mem_append.mpr ⟨h.above, (h'.mono hlo le_rfl).above⟩
  below := forall_mem_append.mpr ⟨(h.mono le_rfl hhi).below, h'.below⟩
  ordered := pairwise_append.mpr
    ⟨h.ordered, h'.ordered, fun d hd e he => (h.below d hd).trans (h'.above e he)⟩

section

variable (h : Within source lo hi es)
include h

/-- Edits `Within` two offsets may be replaced by others within their own stretches. -/
theorem flatMap {f : Edit → List Edit}
    (hf : ∀ e ∈ es, Within source e.offset e.stop (f e)) : Within source lo hi (es.flatMap f) := by
  induction es generalizing lo with
  | nil => exact .nil source lo hi
  | cons e es ih =>
    obtain ⟨hfe, hfes⟩ := forall_mem_cons.mp hf
    obtain ⟨hlt, hordered⟩ := pairwise_cons.mp h.ordered
    -- behind the first edit the others have the rest of the stretch to themselves
    have hrest : Within source e.stop hi es :=
      ⟨(forall_mem_cons.mp h.slices).2, hlt, (forall_mem_cons.mp h.below).2, hordered⟩
    have hlo : lo ≤ e.offset := h.above e mem_cons_self
    rw [flatMap_cons]
    exact (hfe.mono hlo le_rfl).append (ih hrest hfes) (hlo.trans (Nat.le_add_right _ _))
      (h.below e mem_cons_self)

/-- Edits that are `Within` two offsets apply. -/
theorem applyFrom_eq_ok : ∃ t, applyFrom source lo es = .ok t := by
  induction es generalizing lo with
  | nil => exact ⟨_, rfl⟩
  | cons e es ih =>
    obtain ⟨hslice, hslices⟩ := forall_mem_cons.mp h.slices
    obtain ⟨hlt, hordered⟩ := pairwise_cons.mp h.ordered
    obtain ⟨t, ht⟩ := ih ⟨hslices, hlt, (forall_mem_cons.mp h.below).2, hordered⟩
    refine ⟨Text.slice source lo e.offset ++ e.text ++ t, ?_⟩
    rw [applyFrom, if_neg (by simpa [Option.isSome_iff_ne_none] using hslice),
      if_neg (Nat.not_lt.mpr (h.above e mem_cons_self)), ht]
    rfl

/-- Edits that are `Within` two offsets are `sorted`. -/
theorem sorted_eq : sorted es = es := by
  refine mergeSort_of_pairwise (h.ordered.imp fun {d e} hde => ?_)
  exact decide_eq_true ((Nat.le_add_right d.offset d.length).trans hde)

theorem apply_eq_ok : ∃ t, apply source es = .ok t := by
  rw [apply, h.sorted_eq]
  exact (h.mono (Nat.zero_le lo) le_rfl).applyFrom_eq_ok

end

end Within

/-- `minimize?` stays within the stretch of its edit. -/
theorem within_minimize? (h : (e.old? source).isSome = true) :
    Within source e.offset e.stop (minimize? source e).toList := by
  obtain ⟨old, hold⟩ := Option.isSome_iff_exists.mp h
  obtain ⟨as, cs, hsource, has, hstop⟩ := Text.slice?_eq_some_iff.mp hold
  rcases minimize?_spec hold with ⟨hnone, -⟩ | ⟨front, mid, mid', back, hmid, -, hsome, -⟩
  · rw [hnone]
    exact .nil source _ _
  · rw [hsome, Option.toList_some]
    rw [hmid] at hsource
    have hcut : source.toList = as ++ front ++ mid ++ (back ++ cs) := by
      simpa only [append_assoc] using hsource
    have hone := Within.of_toList hcut (String.ofList mid')
    rw [sizeOfChars_append, has] at hone
    have hsize := sizeOfChars_toList old
    rw [hmid, sizeOfChars_append, sizeOfChars_append] at hsize
    exact hone.mono (Nat.le_add_right _ _) (by omega)

theorem flatten_runs (cs : List Char) : (runs cs).flatten = cs := by
  induction cs with
  | nil => rfl
  | cons c cs ih =>
    rw [runs]
    split
    · next d run rest hruns =>
      rw [hruns] at ih
      split
      · rw [flatten_cons, cons_append, ← flatten_cons, ih]
      · rw [flatten_cons, ih]
        rfl
    · rw [flatten_cons, ih]
      rfl

variable {as cs a : List Char} {n : Nat} {ps : List Piece}

/-- `replaceRuns` stays within the old runs. -/
theorem within_replaceRuns (old new : List (List Char))
    (hsource : source.toList = as ++ old.flatten ++ cs) :
    Within source (sizeOfChars as) (sizeOfChars as + sizeOfChars old.flatten)
      (replaceRuns (sizeOfChars as) old new) := by
  induction old generalizing as new with
  | nil =>
    cases new with
    | nil => exact .nil source _ _
    | cons n new => exact .of_toList hsource _
  | cons o old ih =>
    rw [flatten_cons] at hsource ⊢
    rw [← append_assoc] at hsource
    have hrest (new : List (List Char)) := ih new hsource
    rw [append_assoc (as ++ o)] at hsource
    have hone := Within.of_toList hsource
    simp only [sizeOfChars_append, ← Nat.add_assoc] at hrest ⊢
    cases new with
    | nil => exact (hone "").append (hrest []) (Nat.le_add_right _ _) (Nat.le_add_right _ _)
    | cons n new =>
      rw [replaceRuns]
      split
      · -- equal runs need no edit
        exact (hrest new).mono (Nat.le_add_right _ _) le_rfl
      · exact (hone (String.ofList n)).append (hrest new) (Nat.le_add_right _ _)
          (Nat.le_add_right _ _)

/-- `splitRuns` stays within the stretch of its edit. -/
theorem within_splitRuns (h : (e.old? source).isSome = true) :
    Within source e.offset e.stop (splitRuns source e) := by
  obtain ⟨old, hold⟩ := Option.isSome_iff_exists.mp h
  obtain ⟨as, cs, hsource, has, hstop⟩ := Text.slice?_eq_some_iff.mp hold
  have hruns := within_replaceRuns (runs old.toList) (runs e.text.toList)
    (by rw [flatten_runs]; exact hsource)
  rw [flatten_runs, sizeOfChars_toList, has, ← hstop] at hruns
  rw [splitRuns, hold]
  exact hruns

/-- `finish` keeps edits `Within` two offsets. -/
theorem Within.finish {lo hi : Nat} {es : List Edit} (h : Within source lo hi es)
    (range template : Option Span) : Within source lo hi (finish source range template es) := by
  -- small edits, then those in the range, then runs: each time an edit gives way to some within it
  have hsmall : Within source lo hi (es.filterMap (minimize? source)) := by
    rw [filterMap_eq_flatMap_toList]
    exact h.flatMap fun e he => within_minimize? (h.slices e he)
  have hrange : Within source lo hi
      ((es.filterMap (minimize? source)).filter fun e => range.all (·.contains e.offset)) :=
    ⟨fun e he => hsmall.slices e (mem_of_mem_filter he),
      fun e he => hsmall.above e (mem_of_mem_filter he),
      fun e he => hsmall.below e (mem_of_mem_filter he), hsmall.ordered.filter _⟩
  refine hrange.flatMap fun e he => ?_
  cases template with
  | none => exact .singleton (hrange.slices e he)
  | some region =>
    dsimp only
    split
    · exact within_splitRuns (hrange.slices e he)
    · exact .singleton (hrange.slices e he)

/-! ## Pieces -/

/-- The pieces stand one after the other, from an offset on. -/
def Placed (n : Nat) : List Piece → Prop
  | [] => True
  | p :: ps => p.offset = n ∧ p.length = Text.size p.old ∧ Placed (n + Text.size p.old) ps

/-- The small edits of pieces. -/
def ofPieces (source : String) (ps : List Piece) : List Edit :=
  (ps.filterMap Piece.edit?).filterMap (minimize? source)

/-- `ofPieces` takes one edit from a piece that changes, which replaces a part of it. -/
theorem ofPieces_cons {p : Piece} (hplaced : Placed n (p :: ps)) (hn : sizeOfChars as = n)
    (hsource : source.toList = as ++ p.old.toList ++ cs) :
    (ofPieces source (p :: ps) = ofPieces source ps ∧ p.new = p.old) ∨
    ∃ front mid mid' back, p.old.toList = front ++ mid ++ back ∧
      p.new.toList = front ++ mid' ++ back ∧
      ofPieces source (p :: ps) =
        ⟨n + sizeOfChars front, sizeOfChars mid, String.ofList mid'⟩ ::
          ofPieces source ps := by
  obtain ⟨hoffset, hlength, -⟩ := hplaced
  by_cases hnew : p.new = p.old
  · refine .inl ⟨?_, hnew⟩
    rw [ofPieces, filterMap_cons_none (by rw [Piece.edit?, if_pos (by simpa using hnew)])]
    rfl
  · have hedit : p.edit? = some ⟨p.offset, p.length, p.new⟩ := by
      rw [Piece.edit?, if_neg (by simpa using hnew)]
    have hold : old? ⟨p.offset, p.length, p.new⟩ source = some p.old := by
      have hslice := Text.slice?_of_toList hsource
      rw [hn, sizeOfChars_toList, String.ofList_toList] at hslice
      rw [old?, stop, hoffset, hlength]
      exact hslice
    rw [ofPieces, filterMap_cons_some hedit]
    rcases minimize?_spec hold with ⟨-, heq⟩ | ⟨front, mid, mid', back, hmid, hmid', hmin, -⟩
    · exact absurd heq hnew
    · refine .inr ⟨front, mid, mid', back, hmid, hmid', ?_⟩
      rw [filterMap_cons_some hmin, hoffset]
      rfl

/-- The edits of pieces that are `Placed` one after the other are `Within` the source. -/
theorem within_pieces (hplaced : Placed n ps) (hn : sizeOfChars a = n)
    (hsource : source.toList = a ++ ps.flatMap (·.old.toList)) :
    Within source n (Text.size source) (ps.filterMap Piece.edit?) := by
  induction ps generalizing n a with
  | nil => exact .nil source _ _
  | cons p ps ih =>
    obtain ⟨hoffset, hlength, hplaced⟩ := hplaced
    rw [flatMap_cons, ← append_assoc] at hsource
    have hrest := ih hplaced
      (by rw [sizeOfChars_append, hn, sizeOfChars_toList]) hsource
    have hsize := congrArg sizeOfChars hsource
    simp only [sizeOfChars_append, sizeOfChars_toList, hn] at hsize
    rw [filterMap_cons]
    cases hedit : p.edit? with
    | none =>
      -- a piece that stays leaves its stretch unused
      exact hrest.mono (Nat.le_add_right _ _) le_rfl
    | some e =>
      obtain rfl : ⟨p.offset, p.length, p.new⟩ = e := by
        rw [Piece.edit?] at hedit
        split at hedit
        · cases hedit
        · exact Option.some.inj hedit
      have hone := Within.of_toList hsource p.new
      rw [hn, sizeOfChars_toList, ← hlength, ← hoffset] at hone
      rw [← hlength, ← hoffset] at hrest
      rw [← hoffset]
      exact hone.append hrest (Nat.le_add_right _ _) (by omega)

/-- `applyFrom` with `ofPieces` keeps what stands before the first piece, and replaces each piece by
its new text. -/
theorem applyFrom_ofPieces {b : List Char} (hplaced : Placed (sizeOfChars (a ++ b)) ps)
    (hsource : source.toList = a ++ b ++ ps.flatMap (·.old.toList)) :
    applyFrom source (sizeOfChars a) (ofPieces source ps) =
      .ok (String.ofList (b ++ ps.flatMap (·.new.toList))) := by
  induction ps generalizing a b with
  | nil =>
    rw [flatMap_nil, append_nil] at hsource ⊢
    exact congrArg Except.ok (Text.after_of_toList hsource)
  | cons p ps ih =>
    rw [flatMap_cons, ← append_assoc] at hsource
    have hplaced' := hplaced.2.2
    rw [← sizeOfChars_toList, ← sizeOfChars_append] at hplaced'
    rw [flatMap_cons]
    rcases ofPieces_cons hplaced rfl hsource with
      ⟨heq, hnew⟩ | ⟨front, mid, mid', back, hold, hnew, heq⟩
    · rw [heq, hnew, ← append_assoc]
      exact ih (by rwa [append_assoc] at hplaced') (by rw [hsource]; simp)
    · rw [hold] at hsource hplaced'
      -- what is left of the piece behind its edit goes with the rest
      have hrest := ih (a := a ++ b ++ front ++ mid) (b := back)
        (by simpa only [append_assoc] using hplaced')
        (by simpa only [append_assoc] using hsource)
      have hkept : source.toList = a ++ (b ++ front) ++
          (mid ++ back ++ ps.flatMap (·.old.toList)) := by
        simpa only [append_assoc] using hsource
      have hmid : source.toList = (a ++ b ++ front) ++ mid ++
          (back ++ ps.flatMap (·.old.toList)) := by
        simpa only [append_assoc] using hsource
      have hslice := Text.slice_of_toList hkept
      have hold? := Text.slice?_of_toList hmid
      rw [sizeOfChars_append b, ← Nat.add_assoc, ← sizeOfChars_append a] at hslice
      rw [sizeOfChars_append (a ++ b)] at hold?
      rw [sizeOfChars_append (a ++ b ++ front), sizeOfChars_append (a ++ b)] at hrest
      have hlt : ¬ sizeOfChars (a ++ b) + sizeOfChars front < sizeOfChars a := by
        rw [sizeOfChars_append]
        omega
      rw [heq, applyFrom, old?, stop]
      dsimp only
      rw [hold?, if_neg (by simp), if_neg hlt, hslice, hrest]
      show Except.ok (_ ++ _ ++ _) = _
      rw [← String.ofList_append, ← String.ofList_append, hnew]
      simp only [append_assoc]

/-- `apply` makes the new texts of pieces out of the source that their old texts make up. -/
theorem apply_finish (hplaced : Placed 0 ps) (hsource : source.toList = ps.flatMap (·.old.toList)) :
    apply source (finish source none none (ps.filterMap Piece.edit?)) =
      .ok (String.ofList (ps.flatMap (·.new.toList))) := by
  have hfinish : finish source none none (ps.filterMap Piece.edit?) = ofPieces source ps := by
    simp [finish, ofPieces]
  have hwithin := (within_pieces (a := []) hplaced rfl hsource).finish none none
  rw [apply, hwithin.sorted_eq, hfinish]
  exact applyFrom_ofPieces (a := []) (b := []) hplaced hsource

end Edit

end CodeLayout
