import CodeLayout.Proofs.Indent.Scan

/-!
# Passing pairs

A scan that goes back over tokens closed in pairs comes out in front of them as if they were not
there, unless one that stands outside of the pairs stops it (`scanBack_append`).  The two counters of a
scan are those of a stack of signs that wait for their partner (`Depth.of`), as long as no pairs cross.

A scan keeps one thing of what it has passed: the last closing parenthesis outside of all pairs.  This
shows only behind `if ([)]` and the like.
-/

namespace CodeLayout.Indent

open List

/-! ## Pairs -/

/-- The signs that come in pairs. -/
inductive Sign where
  | paren
  | bracket
deriving DecidableEq

/-- The sign that a token opens. -/
def opening? : TokenKind → Option Sign
  | .parenBegin => some .paren
  | .arrayBegin | .attributeStart => some .bracket
  | _ => none

/-- The sign that a token closes. -/
def closing? : TokenKind → Option Sign
  | .parenEnd => some .paren
  | .arrayEnd => some .bracket
  | _ => none

/-- The signs that are closed and wait for the token that opens them, the first one first, as
tokens are read from the last to the first; none if another sign than the first is opened. -/
def waiting? : List TokenKind → Option (List Sign)
  | [] => some []
  | k :: rest => do
    let signs ← waiting? rest
    match closing? k, opening? k with
    | some s, _ => some (s :: signs)
    | none, some s => if signs.head? = some s then some signs.tail else none
    | none, none => some signs

/-- A sign is opened that was closed before another one that still waits. -/
def Crossed (kinds : List TokenKind) : Prop :=
  ∃ before k rest signs s, kinds = before ++ k :: rest ∧ waiting? rest = some signs ∧
    opening? k = some s ∧ signs.head? ≠ some s ∧ s ∈ signs

/-- Tokens at which a scan stops, or may stop, outside of pairs. -/
def mayStop (stopAtComma : Bool) (k : TokenKind) : Bool :=
  isScopeDelimiter k || k == .colon || k == .elseKw || k == .doKw || k == .comma && stopAtComma

/-! ## Steps of a scan -/

/-- The depth of a scan inside of signs that wait. -/
def Depth.of (signs : List Sign) (close : Nat) : Depth :=
  ⟨signs.count .paren, signs.count .bracket, close⟩

variable {stopAtComma : Bool} {k : TokenKind} {s : Sign} {signs : List Sign} {c c' : Nat}
  {rest p w : List TokenKind}

theorem Depth.isNested_of : (Depth.of signs c).isNested = !signs.isEmpty := by
  cases signs with
  | nil => rfl
  | cons s signs => cases s <;> simp [Depth.isNested, Depth.of]

theorem scanBack_closing (hk : closing? k = some s) :
    scanBack stopAtComma (.of signs c) (k :: rest) =
      scanBack stopAtComma
        (.of (s :: signs) (if s = .paren ∧ signs = [] then rest.length else c)) rest := by
  unfold closing? at hk
  split at hk <;> cases hk
  · rw [scanBack, Depth.isNested_of]
    cases signs <;> simp [Depth.of]
  · simp [scanBack, Depth.of]

theorem scanBack_opening (hk : opening? k = some s) :
    scanBack stopAtComma (.of signs c) (k :: rest) =
      if s ∉ signs then pure (.opener rest.length)
      else if s = .paren ∧ signs.erase s = [] ∧ rest.head?.any isControlHeader then
        pure (.header c (rest.length - 1))
      else scanBack stopAtComma (.of (signs.erase s) c) rest := by
  have hparens : (Depth.of (signs.erase .paren) c) =
      { Depth.of signs c with parens := (Depth.of signs c).parens - 1 } := by
    simp [Depth.of]
  have hbrackets : (Depth.of (signs.erase .bracket) c) =
      { Depth.of signs c with brackets := (Depth.of signs c).brackets - 1 } := by
    simp [Depth.of]
  unfold opening? at hk
  split at hk <;> cases hk <;> rw [scanBack]
  · rw [← hparens]
    dsimp only
    rw [Depth.isNested_of]
    simp [Depth.of, count_eq_zero]
  · rw [← hbrackets]
    simp [Depth.of, count_eq_zero]
  · rw [← hbrackets]
    simp [Depth.of, count_eq_zero]

/-- `scanBack` passes a token that is no sign inside of pairs, and outside where it may not stop. -/
theorem scanBack_plain (hclose : closing? k = none) (hopen : opening? k = none)
    (hpass : signs = [] → mayStop stopAtComma k = false) :
    scanBack stopAtComma (.of signs c) (k :: rest) = scanBack stopAtComma (.of signs c) rest := by
  rw [scanBack, Depth.isNested_of]
  · cases signs with
    | nil =>
      obtain ⟨⟨⟨⟨hdelimiter, hcolon⟩, helse⟩, hdo⟩, hcomma⟩ := by
        simpa only [mayStop, Bool.or_eq_false_iff] using hpass rfl
      simp [hcomma, hdelimiter, helse, hdo, hcolon]
    | cons s signs => rfl
  all_goals
    rintro rfl
    simp [closing?, opening?] at hclose hopen

/-! ## Passing closed tokens -/

/-- Outside of the pairs of `w`, nothing stops a scan, and no parenthesis follows the keyword of a
control statement.  A token stands outside if the tokens from it on are closed. -/
def Passable (stopAtComma : Bool) (p w : List TokenKind) : Prop :=
  ∀ i (h : i < w.length), waiting? (w.drop i) = some [] → mayStop stopAtComma w[i] = false ∧
    (w[i] = .parenBegin → (p ++ w.take i).getLast?.any isControlHeader = false)

instance : Decidable (Passable stopAtComma p w) := Nat.decidableBallLT _ _

/-- In front of the tokens, `scanBack` is inside of the signs that wait. -/
theorem exists_scanBack_append (hsigns : waiting? w = some signs) (h : Passable stopAtComma p w) :
    ∃ c, scanBack stopAtComma {} (p ++ w).reverse = scanBack stopAtComma (.of signs c) p.reverse := by
  induction w generalizing p signs with
  | nil =>
    cases hsigns
    exact ⟨0, by rw [append_nil]; rfl⟩
  | cons k w ih =>
    have hfirst (hnone : signs = []) := h 0 (Nat.succ_pos _) (hnone ▸ hsigns)
    rw [waiting?] at hsigns
    obtain ⟨signs', hsigns', hk⟩ := Option.bind_eq_some_iff.mp hsigns
    obtain ⟨c, hc⟩ := ih (p := p ++ [k]) hsigns' fun i hi hclosed => by
      simpa using h (i + 1) (Nat.succ_lt_succ hi) hclosed
    have hback : (p ++ [k]).reverse = k :: p.reverse := by simp
    rw [append_assoc, singleton_append, hback] at hc
    rw [hc]
    cases hclose : closing? k with
    | some s =>
      rw [hclose] at hk
      cases hk
      exact ⟨_, scanBack_closing hclose⟩
    | none =>
      cases hopen : opening? k with
      | some s =>
        rw [hclose, hopen] at hk
        dsimp only at hk
        split at hk <;> cases hk
        next hhead =>
        obtain ⟨signs, rfl⟩ := head?_eq_some_iff.mp hhead
        refine ⟨c, ?_⟩
        rw [scanBack_opening hopen, if_neg (by simp), erase_cons_head, if_neg]
        · rfl
        rintro ⟨rfl, hnone, hheader⟩
        have hparen : k = .parenBegin := by
          unfold opening? at hopen
          split at hopen <;> first | rfl | cases hopen
        have hplain := (hfirst hnone).2 hparen
        rw [take_zero, append_nil, ← head?_reverse, hheader] at hplain
        cases hplain
      | none =>
        rw [hclose, hopen] at hk
        cases hk
        exact ⟨c, scanBack_plain hclose hopen fun hnone => (hfirst hnone).1⟩

/-! ## What a scan keeps -/

/-- Two scans that answer the same, but for the ends of a head that the pairs of `p` cross. -/
def Differ (p : List TokenKind) (c c' : Nat) (m n : Look Stop) : Prop :=
  ∀ off, m.run off = n.run off ∨ Crossed p ∧ ∃ keyword off',
    m.run off = (.header c keyword, off') ∧ n.run off = (.header c' keyword, off')

namespace Differ

variable {m n m' n' : Look Stop}

theorem refl : Differ p c c' m m := fun _ => .inl rfl

theorem ite {q : Prop} [Decidable q] (h : Differ p c c' m n) (h' : Differ p c c' m' n') :
    Differ p c c' (if q then m else m') (if q then n else n') := by
  split
  · exact h
  · exact h'

theorem bind {l : Look Bool} {f g : Bool → Look Stop} (h : ∀ b, Differ p c c' (f b) (g b)) :
    Differ p c c' (l >>= f) (l >>= g) :=
  fun _ => h _ _

end Differ

/-- The closing sign that `scanBack` has noted before shows only where pairs cross. -/
theorem scanBack_differ {b : List TokenKind} (hp : p = rest.reverse ++ b)
    (h : Crossed p ∨ signs.getLast? ≠ some .paren ∧ waiting? b = some signs) :
    Differ p c c' (scanBack stopAtComma (.of signs c) rest)
      (scanBack stopAtComma (.of signs c') rest) := by
  induction rest generalizing signs b with
  | nil => exact .refl
  | cons k rest ih =>
    rw [reverse_cons, append_assoc, singleton_append] at hp
    cases hclose : closing? k with
    | some s =>
      rw [scanBack_closing hclose, scanBack_closing hclose]
      split
      · exact .refl
      · next hs =>
        refine ih hp (h.imp_right ?_)
        rintro ⟨hlast, hsigns⟩
        refine ⟨?_, by simp [waiting?, hsigns, hclose]⟩
        cases signs with
        | nil => simpa using hs
        | cons s' signs => simpa using hlast
    | none =>
      cases hopen : opening? k with
      | some s =>
        rw [scanBack_opening hopen, scanBack_opening hopen]
        split
        · exact .refl
        next hs =>
        rw [Decidable.not_not] at hs
        split
        · next hheader =>
          -- only a parenthesis waits, and it was noted where it closes
          refine fun off => .inr ⟨h.resolve_right ?_, _, off, rfl, rfl⟩
          rintro ⟨hlast, -⟩
          obtain ⟨rfl, herase, -⟩ := hheader
          rcases erase_eq_nil_iff.mp herase with rfl | rfl
          · exact not_mem_nil hs
          · exact hlast rfl
        · refine ih hp (h.elim .inl fun ⟨hlast, hsigns⟩ => ?_)
          by_cases hhead : signs.head? = some s
          · obtain ⟨signs, rfl⟩ := head?_eq_some_iff.mp hhead
            rw [erase_cons_head]
            refine .inr ⟨?_, by simp [waiting?, hsigns, hclose, hopen]⟩
            cases signs with
            | nil => simp
            | cons s' signs => simpa using hlast
          · exact .inl ⟨_, k, b, signs, s, hp, hsigns, hopen, hhead, hs⟩
      | none =>
        have hnext : Differ p c c' (scanBack stopAtComma (.of signs c) rest)
            (scanBack stopAtComma (.of signs c') rest) :=
          ih hp (h.imp_right fun ⟨hlast, hsigns⟩ =>
            ⟨hlast, by simp [waiting?, hsigns, hclose, hopen]⟩)
        rw [scanBack, scanBack, Depth.isNested_of, Depth.isNested_of]
        · exact .ite hnext (.ite .refl (.ite .refl (.ite .refl
            (.ite (.bind fun _ => .ite .refl hnext) hnext))))
        all_goals
          rintro rfl
          simp [closing?, opening?] at hclose hopen

/-- A scan over `p` and tokens closed in pairs stops where a scan over `p` alone stops, and needs a token
in front of the first one in the same cases.  Where pairs of `p` cross, both may come to the head of a
control statement whose last token the first one takes for another. -/
theorem scanBack_append (hclosed : waiting? w = some []) (h : Passable stopAtComma p w)
    (off : Bool) :
    (scanBack stopAtComma {} (p ++ w).reverse).run off = (scanBack stopAtComma {} p.reverse).run off ∨
      Crossed p ∧ ∃ last keyword off',
        (scanBack stopAtComma {} (p ++ w).reverse).run off = (.header last keyword, off') ∧
        (scanBack stopAtComma {} p.reverse).run off = (.header 0 keyword, off') := by
  obtain ⟨c, hc⟩ := exists_scanBack_append hclosed h
  rw [hc]
  have hp : p = p.reverse.reverse ++ [] := by simp
  refine (scanBack_differ hp (.inr ⟨by simp, rfl⟩) off).imp_right ?_
  rintro ⟨hcrossed, keyword, off', hheader⟩
  exact ⟨hcrossed, c, keyword, off', hheader⟩

/-- Behind `if (` stands `f([;]:)#[,]`, where the brackets hide the rest. -/
theorem scanBack_append_nested :
    let p := [.openTag, .ifKw, .parenBegin]
    let w := [.name, .parenBegin, .arrayBegin, .semiColon, .arrayEnd, .colon, .parenEnd,
      .attributeStart, .comma, .arrayEnd]
    waiting? w = some [] ∧ Passable true p w ∧
      (scanBack true {} (p ++ w).reverse).run false = (scanBack true {} p.reverse).run false :=
  ⟨by decide, by decide, (scanBack_append (by decide) (by decide) false).resolve_right
    fun ⟨_, _, _, _, _, h⟩ => nomatch h⟩

/-- Behind `if ([)]` stands `()x`, whose parenthesis is taken for the last one of the head. -/
theorem scanBack_append_crossed :
    let p := [.openTag, .ifKw, .parenBegin, .arrayBegin, .parenEnd, .arrayEnd]
    let w := [.parenBegin, .parenEnd, .name]
    waiting? w = some [] ∧ Passable true p w ∧
      (scanBack true {} (p ++ w).reverse).run false = (.header 7 1, false) ∧
      (scanBack true {} p.reverse).run false = (.header 0 1, false) :=
  ⟨by decide, by decide, rfl, rfl⟩

end CodeLayout.Indent
