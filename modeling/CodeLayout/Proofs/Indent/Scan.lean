import CodeLayout.Indent.Predict

/-!
# Looking back from inside a window

A look at the last tokens of a text says when it needs one in front of the first that it sees.  A look
that does not say so should answer what it answers over all the tokens, with every position moved by
the number of tokens in front (`Agrees`).

This holds of the scans that the rules are made of, but for one case.  The head of a control statement
is told by its last token too, which a scan notes at the outermost closing parenthesis that it
enters.  Where brackets and parentheses cross, as in `if ([)]`, none is noted, and the scan answers the
position 0, whatever stands there (`Stop.Moved.crossed`).
-/

namespace CodeLayout.Indent

open List

variable {α β γ δ : Type}

/-! ## Looks -/

/-- A look does not forget that a token was needed. -/
def Steady (m : Look α) : Prop := (m.run true).2 = true

/-- Where the first look gets by with the tokens that it sees, so does the second one, and their
answers are related. -/
def Agrees (P : α → β → Prop) (m : Look α) (n : Look β) : Prop :=
  ∀ a, m.run false = (a, false) → ∃ b, n.run false = (b, false) ∧ P a b

namespace Steady

theorem pure {a : α} : Steady (pure a : Look α) := rfl

theorem ranOff : Steady Indent.ranOff := rfl

variable {m : Look α}

theorem bind {f : α → Look β} (hm : Steady m) (hf : ∀ a, Steady (f a)) : Steady (m >>= f) := by
  show ((f (m.run true).1).run (m.run true).2).2 = true
  rw [hm]
  exact hf _

theorem ite {c : Prop} [Decidable c] {n : Look α} (hm : Steady m) (hn : Steady n) :
    Steady (if c then m else n) := by
  split
  · exact hm
  · exact hn

end Steady

/-- Whatever was needed before, the look answers as `Q` says. -/
def Answers (Q : α → Prop) (m : Look α) : Prop := ∀ off, Q (m.run off).1

namespace Answers

variable {Q : α → Prop}

theorem pure {a : α} (h : Q a) : Answers Q (pure a) := fun _ => h

theorem bind {m : Look β} {f : β → Look α} (hf : ∀ b, Answers Q (f b)) : Answers Q (m >>= f) :=
  fun _ => hf _ _

theorem ite {c : Prop} [Decidable c] {m n : Look α} (hm : Answers Q m) (hn : Answers Q n) :
    Answers Q (if c then m else n) := by
  split
  · exact hm
  · exact hn

end Answers

namespace Agrees

variable {P Q : α → β → Prop}

theorem pure {a : α} {b : β} (h : P a b) : Agrees P (pure a) (pure b) := by
  intro a' ha
  cases ha
  exact ⟨b, rfl, h⟩

variable {m : Look α} {n : Look β}

theorem mono (h : Agrees P m n) (hPQ : ∀ a b, P a b → Q a b) : Agrees Q m n := by
  intro a ha
  obtain ⟨b, hb, hab⟩ := h a ha
  exact ⟨b, hb, hPQ a b hab⟩

theorem ite {c : Prop} [Decidable c] {m' : Look α} {n' : Look β} (hmn : Agrees P m n)
    (hmn' : Agrees P m' n') : Agrees P (if c then m else m') (if c then n else n') := by
  split
  · exact hmn
  · exact hmn'

/-- A look that has `ranOff` agrees with any other. -/
theorem ranOff {f : Unit → Look α} (hf : ∀ u, Steady (f u)) : Agrees P (Indent.ranOff >>= f) n := by
  intro a ha
  have hoff : ((Indent.ranOff >>= f).run false).2 = true := hf ()
  rw [ha] at hoff
  cases hoff

/-- What follows two looks that agree (`Agrees`) may use what they have answered. -/
theorem bind {R : γ → δ → Prop} {f : α → Look γ} {g : β → Look δ} (hmn : Agrees P m n)
    (hf : ∀ a, Steady (f a))
    (hfg : ∀ a b, m.run false = (a, false) → n.run false = (b, false) → P a b →
      Agrees R (f a) (g b)) : Agrees R (m >>= f) (n >>= g) := by
  intro c hc
  have hrun : (f (m.run false).1).run (m.run false).2 = (c, false) := hc
  cases hm : m.run false with
  | mk a off =>
    rw [hm] at hrun
    cases off with
    | true =>
      have hoff : ((f a).run true).2 = true := hf a
      rw [hrun] at hoff
      cases hoff
    | false =>
      obtain ⟨b, hn, hab⟩ := hmn a hm
      obtain ⟨d, hd, hcd⟩ := hfg a b hm hn hab c hrun
      refine ⟨d, ?_, hcd⟩
      show (g (n.run false).1).run (n.run false).2 = (d, false)
      rw [hn]
      exact hd

end Agrees

/-! ## Labels and pairs -/

theorem steady_endsCaseLabel (depth : Nat) (kinds : List TokenKind) :
    Steady (endsCaseLabel depth kinds) := by
  induction kinds generalizing depth with
  | nil => exact .bind .ranOff fun _ => .pure
  | cons k rest ih =>
    unfold endsCaseLabel
    split
    all_goals first | exact ih _ | exact .pure | exact .ite .pure (ih _)

theorem agrees_endsCaseLabel (front : List TokenKind) (depth : Nat) (kinds : List TokenKind) :
    Agrees Eq (endsCaseLabel depth kinds) (endsCaseLabel depth (kinds ++ front)) := by
  induction kinds generalizing depth with
  | nil => exact .ranOff fun _ => .pure
  | cons k rest ih =>
    rw [cons_append]
    unfold endsCaseLabel
    split
    all_goals first | exact ih _ | exact .pure rfl | exact .ite (.pure rfl) (ih _)

theorem agrees_openingParen? (front : List TokenKind) (depth : Nat) (kinds : List TokenKind) :
    Agrees (fun p q => ∃ i < kinds.length, p = some i ∧ q = some (front.length + i))
      (openingParen? depth kinds) (openingParen? depth (kinds ++ front)) := by
  have hstep {depth : Nat} {k : TokenKind} {rest : List TokenKind}
      (ih : Agrees (fun p q => ∃ i < rest.length, p = some i ∧ q = some (front.length + i))
        (openingParen? depth rest) (openingParen? depth (rest ++ front))) :
      Agrees (fun p q => ∃ i < (k :: rest).length, p = some i ∧ q = some (front.length + i))
        (openingParen? depth rest) (openingParen? depth (rest ++ front)) := by
    refine ih.mono ?_
    rintro p q ⟨i, hi, hp, hq⟩
    exact ⟨i, Nat.lt_succ_of_lt hi, hp, hq⟩
  induction kinds generalizing depth with
  | nil => exact .ranOff fun _ => .pure
  | cons k rest ih =>
    rw [cons_append]
    unfold openingParen?
    split
    case h_2 =>
      refine .pure ⟨rest.length, Nat.lt_succ_self _, rfl, ?_⟩
      rw [length_append, Nat.add_comm]
    all_goals exact hstep (ih _)

/-! ## Scans -/

/-- The depth of a scan, with the closing sign moved, if it was noted. -/
structure Depth.Moved (n : Nat) (d d' : Depth) : Prop where
  parens : d'.parens = d.parens
  brackets : d'.brackets = d.brackets
  outerClose : d'.outerClose = n + d.outerClose ∨ d.outerClose = 0 ∧ d'.outerClose = 0

variable {n : Nat} {d d' : Depth}

theorem Depth.Moved.isNested (h : Depth.Moved n d d') : d'.isNested = d.isNested := by
  rw [Depth.isNested, Depth.isNested, h.parens, h.brackets]

/-- A stop with all positions moved.  The last token of a head that was never noted stays where it
is. -/
inductive Stop.Moved (n : Nat) : Stop → Stop → Prop
  | delimiter (i : Nat) : Moved n (.delimiter i) (.delimiter (n + i))
  | opener (i : Nat) : Moved n (.opener i) (.opener (n + i))
  | comma (i : Nat) : Moved n (.comma i) (.comma (n + i))
  | header (last keyword : Nat) : Moved n (.header last keyword) (.header (n + last) (n + keyword))
  | crossed (keyword : Nat) : Moved n (.header 0 keyword) (.header 0 (n + keyword))

theorem Depth.Moved.header (h : Depth.Moved n d d') (keyword : Nat) :
    Stop.Moved n (.header d.outerClose keyword) (.header d'.outerClose (n + keyword)) := by
  rcases h.outerClose with hnoted | ⟨hzero, hzero'⟩
  · rw [hnoted]
    exact .header _ _
  · rw [hzero, hzero']
    exact .crossed _

theorem steady_scanBack (stopAtComma : Bool) (d : Depth) (kinds : List TokenKind) :
    Steady (scanBack stopAtComma d kinds) := by
  induction kinds generalizing d with
  | nil => exact .bind .ranOff fun _ => .pure
  | cons k rest ih =>
    unfold scanBack
    dsimp only
    split
    case h_3 => exact .ite .pure (.ite .pure (ih _))
    case h_6 =>
      refine .ite (ih _) (.ite .pure (.ite .pure (.ite .pure (.ite ?_ (ih _)))))
      exact .bind (steady_endsCaseLabel 0 rest) fun _ => .ite .pure (ih _)
    all_goals first | exact ih _ | exact .ite .pure (ih _)

/-- The keyword of a head stands among so many tokens. -/
def Stop.Within (size : Nat) : Stop → Prop
  | .header _ keyword => keyword < size
  | _ => True

theorem Stop.Within.succ {size : Nat} {stop : Stop} (h : stop.Within size) :
    stop.Within (size + 1) := by
  cases stop with
  | header last keyword => exact Nat.lt_succ_of_lt h
  | _ => trivial

theorem scanBack_within (stopAtComma : Bool) (d : Depth) (kinds : List TokenKind) :
    Answers (Stop.Within kinds.length) (scanBack stopAtComma d kinds) := by
  induction kinds generalizing d with
  | nil => exact .bind fun _ => .pure trivial
  | cons k rest ih =>
    have hnext (d : Depth) : Answers (Stop.Within (k :: rest).length)
        (scanBack stopAtComma d rest) := fun off => (ih d off).succ
    unfold scanBack
    dsimp only
    split
    case h_3 =>
      refine .ite (.pure trivial) (.ite (.pure ?_) (hnext _))
      show rest.length - 1 < rest.length + 1
      omega
    case h_6 =>
      refine .ite (hnext _) (.ite (.pure trivial) (.ite (.pure trivial)
        (.ite (.pure (Nat.lt_succ_self _)) (.ite ?_ (hnext _)))))
      exact .bind fun _ => .ite (.pure trivial) (hnext _)
    all_goals first | exact hnext _ | exact .ite (.pure trivial) (hnext _)

theorem agrees_scanBack (front : List TokenKind) (stopAtComma : Bool)
    (hd : Depth.Moved front.length d d') (kinds : List TokenKind) :
    Agrees (Stop.Moved front.length) (scanBack stopAtComma d kinds)
      (scanBack stopAtComma d' (kinds ++ front)) := by
  induction kinds generalizing d d' with
  | nil => exact .ranOff fun _ => .pure
  | cons k rest ih =>
    have hhere : (rest ++ front).length = front.length + rest.length := by
      rw [length_append, Nat.add_comm]
    rw [cons_append]
    unfold scanBack
    dsimp only
    rw [hhere, hd.isNested, hd.parens, hd.brackets]
    split
    case h_1 =>
      refine ih ⟨rfl, rfl, ?_⟩
      -- the closing sign is noted here, or was noted before
      cases hnested : d.isNested with
      | false => exact .inl rfl
      | true => exact hd.outerClose
    case h_2 => exact ih ⟨rfl, rfl, hd.outerClose⟩
    case h_3 =>
      refine .ite (.pure (.opener _)) ?_
      cases rest with
      | nil =>
        -- the token in front decides, and is not seen
        rw [if_neg (by simp)]
        exact .ranOff fun _ => .pure
      | cons next rest =>
        exact .ite (.pure (hd.header _)) (ih ⟨rfl, rfl, hd.outerClose⟩)
    case h_6 =>
      have hnext := ih hd
      refine .ite hnext (.ite (.pure (.comma _)) (.ite (.pure (.delimiter _))
        (.ite (.pure (.header _ _)) (.ite ?_ hnext))))
      refine (agrees_endsCaseLabel front 0 rest).bind
        (fun _ => .ite .pure (steady_scanBack _ _ _)) ?_
      rintro b _ - - rfl
      exact .ite (.pure (.delimiter _)) hnext
    all_goals exact .ite (.pure (.opener _)) (ih ⟨rfl, rfl, hd.outerClose⟩)

end CodeLayout.Indent
