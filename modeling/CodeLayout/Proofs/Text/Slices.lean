import CodeLayout.Text.Slice
import Mathlib.Data.String.Basic

/-!
# Slices as stretches of characters

Offsets count bytes, but everything that is said about a text is said about its characters.  The
bridge is `slice?_eq_some_iff`: the slice between two offsets is `t` exactly if the characters of
the text are some characters that weigh the first offset, then those of `t`, then some others, and
the second offset is reached behind `t`.
-/

namespace CodeLayout.Text

open List

/-! ## Sizes -/

@[simp] theorem sizeOfChars_nil : sizeOfChars [] = 0 := rfl

theorem sizeOfChars_eq_utf8Len (cs : List Char) : sizeOfChars cs = String.utf8Len cs := by
  induction cs with
  | nil => rfl
  | cons c cs ih =>
    rw [sizeOfChars, String.utf8Len_cons, ih]
    exact Nat.add_comm _ _

@[simp] theorem sizeOfChars_append (as bs : List Char) :
    sizeOfChars (as ++ bs) = sizeOfChars as + sizeOfChars bs := by
  simp only [sizeOfChars_eq_utf8Len, String.utf8Len_append]

@[simp] theorem sizeOfChars_toList (s : String) : sizeOfChars s.toList = size s := by
  rw [sizeOfChars_eq_utf8Len, String.utf8Len_toList]

@[simp] theorem size_ofList (cs : List Char) : size (String.ofList cs) = sizeOfChars cs := by
  rw [← sizeOfChars_toList, String.toList_ofList]

variable {cs as bs as' bs' : List Char} {s t : String}

theorem sizeOfChars_pos (h : cs ≠ []) : 0 < sizeOfChars cs := by
  cases cs with
  | nil => exact absurd rfl h
  | cons c cs =>
    have := c.utf8Size_pos
    rw [sizeOfChars]
    omega

/-- `sizeOfChars` counts one byte for every ASCII character. -/
theorem sizeOfChars_eq_length (h : ∀ c ∈ cs, c.toNat ≤ 127) : sizeOfChars cs = cs.length := by
  induction cs with
  | nil => rfl
  | cons c cs ih =>
    obtain ⟨hc, hcs⟩ := forall_mem_cons.mp h
    have hone : c.utf8Size = 1 := Char.utf8Size_eq_one_iff.mpr (UInt32.le_iff_toNat_le.mpr hc)
    rw [sizeOfChars, ih hcs, hone, length_cons]
    omega

/-- Of two ways to cut a text, the one at the smaller offset cuts off a part of the other. -/
theorem append_split_of_size_le (h : as ++ bs = as' ++ bs')
    (hle : sizeOfChars as ≤ sizeOfChars as') : ∃ m, as' = as ++ m ∧ bs = m ++ bs' := by
  rcases append_eq_append_iff.mp h with ⟨m, hm, hb⟩ | ⟨m, hm, hb⟩
  · exact ⟨m, hm, hb⟩
  · have hm0 : m = [] := by
      by_contra hne
      have := sizeOfChars_pos hne
      rw [hm, sizeOfChars_append] at hle
      omega
    subst hm0
    exact ⟨[], by simpa using hm.symm, by simpa using hb.symm⟩

/-- `sizeOfChars` decides where a text is cut. -/
theorem append_inj_of_size (h : as ++ bs = as' ++ bs') (heq : sizeOfChars as = sizeOfChars as') :
    as = as' ∧ bs = bs' := by
  obtain ⟨m, hm, hb⟩ := append_split_of_size_le h heq.le
  have hm0 : m = [] := by
    by_contra hne
    have := sizeOfChars_pos hne
    rw [hm, sizeOfChars_append] at heq
    omega
  subst hm0
  exact ⟨by simpa using hm.symm, by simpa using hb⟩

/-! ## Boundaries and slices -/

/-- `isBoundary` holds of the size of characters at the start of the text. -/
theorem isBoundary_iff {offset : Nat} :
    isBoundary s offset = true ↔ ∃ as bs, s.toList = as ++ bs ∧ sizeOfChars as = offset := by
  rw [isBoundary, String.Pos.Raw.isValid_eq_true_iff, String.Pos.Raw.isValid_iff_exists_append]
  constructor
  · rintro ⟨s₁, s₂, rfl, hp⟩
    refine ⟨s₁.toList, s₂.toList, String.toList_append, ?_⟩
    rw [sizeOfChars_toList]
    exact (congrArg String.Pos.Raw.byteIdx hp).symm
  · rintro ⟨as, bs, hs, rfl⟩
    refine ⟨String.ofList as, String.ofList bs, ?_, ?_⟩
    · rw [← String.ofList_append, ← hs, String.ofList_toList]
    · rw [String.rawEndPos_ofList, sizeOfChars_eq_utf8Len]

/-- `slice?` is a stretch of the characters of the text. -/
theorem slice?_eq_some_iff {start stop : Nat} :
    slice? s start stop = some t ↔
      ∃ as cs, s.toList = as ++ t.toList ++ cs ∧ sizeOfChars as = start ∧
        stop = start + size t := by
  constructor
  · intro h
    unfold slice? at h
    split at h
    · next hc =>
      simp only [Bool.and_eq_true, decide_eq_true_eq] at hc
      obtain ⟨⟨hle, hstart⟩, hstop⟩ := hc
      obtain ⟨as, bs, hs, has⟩ := isBoundary_iff.mp hstart
      obtain ⟨as', cs, hs', has'⟩ := isBoundary_iff.mp hstop
      obtain ⟨m, rfl, -⟩ := append_split_of_size_le (hs ▸ hs') (by omega)
      have hst : s = String.ofList (as ++ m ++ cs) := by rw [← hs', String.ofList_toList]
      have hext : String.Pos.Raw.extract s ⟨start⟩ ⟨stop⟩ = String.ofList m := by
        rw [← has', ← has, sizeOfChars_append]
        simp only [sizeOfChars_eq_utf8Len]
        rw [hst]
        exact String.extract_of_valid as m cs
      rw [hext] at h
      cases h
      refine ⟨as, cs, ?_, has, ?_⟩
      · rw [String.toList_ofList, hs']
      · rw [size_ofList, ← has', ← has, sizeOfChars_append]
    · exact absurd h (by simp)
  · rintro ⟨as, cs, hs, rfl, rfl⟩
    have hstart : isBoundary s (sizeOfChars as) = true :=
      isBoundary_iff.mpr ⟨as, t.toList ++ cs, by rw [hs, append_assoc], rfl⟩
    have hstop : isBoundary s (sizeOfChars as + size t) = true :=
      isBoundary_iff.mpr ⟨as ++ t.toList, cs, hs, by simp⟩
    have hst : s = String.ofList (as ++ t.toList ++ cs) := by rw [← hs, String.ofList_toList]
    have hext : String.Pos.Raw.extract s ⟨sizeOfChars as⟩ ⟨sizeOfChars as + size t⟩ = t := by
      rw [← sizeOfChars_toList t]
      simp only [sizeOfChars_eq_utf8Len]
      rw [hst, String.extract_of_valid, String.ofList_toList]
    unfold slice?
    rw [hstart, hstop, hext]
    simp

/-- `slice?` of a stretch of characters. -/
theorem slice?_of_toList (h : s.toList = as ++ bs ++ cs) :
    slice? s (sizeOfChars as) (sizeOfChars as + sizeOfChars bs) = some (String.ofList bs) :=
  slice?_eq_some_iff.mpr ⟨as, cs, by rw [String.toList_ofList, h], rfl, by simp⟩

theorem slice_of_toList (h : s.toList = as ++ bs ++ cs) :
    slice s (sizeOfChars as) (sizeOfChars as + sizeOfChars bs) = String.ofList bs := by
  rw [slice, slice?_of_toList h, Option.getD_some]

/-- What two offsets with a `slice?` between them cut a text into. -/
theorem exists_toList_of_slice? {start stop : Nat} (h : (slice? s start stop).isSome = true) :
    ∃ as bs cs, s.toList = as ++ bs ++ cs ∧ start = sizeOfChars as ∧
      stop = sizeOfChars (as ++ bs) := by
  obtain ⟨t, ht⟩ := Option.isSome_iff_exists.mp h
  obtain ⟨as, cs, hs, has, hstop⟩ := slice?_eq_some_iff.mp ht
  refine ⟨as, t.toList, cs, hs, has.symm, ?_⟩
  rw [hstop, sizeOfChars_append, has, sizeOfChars_toList]

theorem isBoundary_of_slice? {start stop : Nat} (h : (slice? s start stop).isSome = true) :
    isBoundary s start = true ∧ isBoundary s stop = true := by
  obtain ⟨as, bs, cs, hs, rfl, rfl⟩ := exists_toList_of_slice? h
  rw [append_assoc] at hs
  refine ⟨isBoundary_iff.mpr ⟨as, bs ++ cs, hs, rfl⟩, isBoundary_iff.mpr ⟨as ++ bs, cs, ?_, rfl⟩⟩
  rw [hs, append_assoc]

/-- `before` an offset, as characters. -/
theorem before_of_toList (h : s.toList = as ++ bs) :
    before s (sizeOfChars as) = String.ofList as := by
  have hcut : s.toList = [] ++ as ++ bs := by rw [nil_append, h]
  simpa [before] using slice_of_toList hcut

/-- The end of `before` is a `slice` up to its offset. -/
theorem slice_of_before {start stop : Nat} (hstop : isBoundary s stop = true)
    (h : slice? (before s stop) start (size (before s stop)) = some t) :
    slice s start stop = t := by
  obtain ⟨as, bs, hs, rfl⟩ := isBoundary_iff.mp hstop
  rw [before_of_toList hs, size_ofList] at h
  obtain ⟨cs, ds, has, rfl, hsize⟩ := slice?_eq_some_iff.mp h
  rw [String.toList_ofList] at has
  rw [hsize, ← sizeOfChars_toList t, slice_of_toList (by rw [hs, has, append_assoc]),
    String.ofList_toList]

/-- `after` an offset, as characters. -/
theorem after_of_toList (h : s.toList = as ++ bs) :
    after s (sizeOfChars as) = String.ofList bs := by
  have hsize : size s = sizeOfChars as + sizeOfChars bs := by
    rw [← sizeOfChars_toList, h, sizeOfChars_append]
  have hcut : s.toList = as ++ bs ++ [] := by rw [append_nil, h]
  rw [after, hsize, slice_of_toList hcut]

@[simp] theorem after_zero (s : String) : after s 0 = s := by
  have hcut : s.toList = [] ++ s.toList := rfl
  simpa [sizeOfChars] using after_of_toList hcut

/-! ## Texts that go on -/

theorem isBoundary_size (s : String) : isBoundary s (size s) = true :=
  isBoundary_iff.mpr ⟨s.toList, [], by simp, by simp⟩

theorem floorBoundary_of_isBoundary {offset : Nat} (h : isBoundary s offset = true) :
    floorBoundary s offset = offset := by
  cases offset with
  | zero => rfl
  | succ n => rw [floorBoundary, if_pos h]

/-- A text that goes on has the same `slice` up to where it went on. -/
theorem slice_of_prefix (h : s.toList <+: t.toList) {stop : Nat} (hstop : stop ≤ size s)
    (start : Nat) : slice t start stop = slice s start stop := by
  obtain ⟨ds, hds⟩ := h
  rw [slice, slice]
  congr 1
  ext u
  rw [slice?_eq_some_iff, slice?_eq_some_iff]
  constructor
  · rintro ⟨as, cs, hs, hstart, rfl⟩
    have hle : sizeOfChars (as ++ u.toList) ≤ sizeOfChars s.toList := by
      rw [sizeOfChars_append, sizeOfChars_toList, sizeOfChars_toList, hstart]
      exact hstop
    obtain ⟨m, hm, -⟩ := append_split_of_size_le (hs.symm.trans hds.symm) hle
    exact ⟨as, m, hm, hstart, rfl⟩
  · rintro ⟨as, cs, hs, hstart, rfl⟩
    exact ⟨as, cs ++ ds, by rw [← hds, hs, append_assoc], hstart, rfl⟩

theorem before_of_prefix (h : s.toList <+: t.toList) {offset : Nat} (hle : offset ≤ size s) :
    before t offset = before s offset := slice_of_prefix h hle 0

@[simp] theorem before_size (s : String) : before s (size s) = s := by
  have hcut : s.toList = s.toList ++ [] := (append_nil _).symm
  simpa using before_of_toList hcut

end CodeLayout.Text
