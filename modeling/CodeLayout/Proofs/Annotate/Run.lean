import CodeLayout.Annotate.Emit
import CodeLayout.Proofs.Token.Tiling

/-!
# Runs over the tokens of a text

`Reading c xs` says that the tokens of a context are those of its source, which reads as the lexemes
`xs`.  `Runs c m s a s'` says that a step answers, and `Goes` that it does so wherever the right margin
is.
-/

namespace CodeLayout

open Lexer (start)

/-- The style with another right margin. -/
def Style.withMargin (style : Style) (margin : Nat) : Style :=
  { style with indent.margin := margin }

namespace Annotate

/-- The token at an index. -/
abbrev Context.token (c : Context) (i : Nat) : Token := c.tokens.getD i default

/-- The context of a text that was read. -/
structure Reading (c : Context) (xs : List Lexeme) : Prop where
  tokens : c.tokens = placed xs
  lexes : Lexer.Lexes .markup xs c.source.toList

/-- The token of a lexeme, at an offset. -/
def tokenOf (n : Nat) (x : Lexeme) : Token := ⟨x.kind, n, Text.sizeOfChars x.text⟩

namespace Reading

variable {c : Context} {xs : List Lexeme} {i j : Nat}

section

variable (hc : Reading c xs)
include hc

theorem size : c.tokens.size = xs.length + 1 := by rw [hc.tokens, placed_size]

theorem getElem? (hi : i < xs.length) : c.tokens[i]? = some (tokenOf (start xs i) xs[i]) := by
  rw [hc.tokens, placed_getElem? hi]
  rfl

theorem getD (hi : i < xs.length) : c.token i = tokenOf (start xs i) xs[i] := by
  rw [Context.token, Array.getD_eq_getD_getElem?, hc.getElem? hi, Option.getD_some]

theorem kind_getD (hi : i < xs.length) : (c.token i).kind = xs[i].kind := by
  rw [hc.getD hi]
  rfl

theorem start_lt (hij : i < j) (hj : j ≤ xs.length) : start xs i < start xs j := by
  have hpos := Text.sizeOfChars_pos (hc.lexes.text_ne_nil _ (List.getElem_mem (hij.trans_le hj)))
  have hnext := Lexer.start_succ (hij.trans_le hj)
  have hmono := Lexer.start_add_stretch xs (i := i + 1) (j := j) hij
  omega

end

end Reading

/-! ## Running a step -/

variable {α : Type} {c : Context} {s : State}

/-- The step answers and goes on to the state. -/
def Runs {α : Type} (c : Context) (m : Emit α) (s : State) (a : α) (s' : State) : Prop :=
  (m.run c).run s = .ok (a, s')

theorem Runs.bind {β : Type} {m : Emit α} {f : α → Emit β} {s₁ s₂ : State} {a : α} {b : β}
    (hm : Runs c m s a s₁) (hf : Runs c (f a) s₁ b s₂) : Runs c (m >>= f) s b s₂ := by
  show Except.bind ((m.run c).run s) (fun p => ((f p.1).run c).run p.2) = _
  rw [show (m.run c).run s = .ok (a, s₁) from hm]
  exact hf

section

variable {α β : Type} {c : Context} {m : Emit α} {f : α → Emit β} {s s₁ s₂ : State} {a : α} {b : β}

theorem Runs.of_bind (h : Runs c (m >>= f) s b s₂) :
    ∃ a s₁, Runs c m s a s₁ ∧ Runs c (f a) s₁ b s₂ := by
  have hbind : Except.bind ((m.run c).run s) (fun p => ((f p.1).run c).run p.2) = .ok (b, s₂) := h
  cases hm : (m.run c).run s with
  | error e =>
    rw [hm] at hbind
    cases hbind
  | ok p =>
    rw [hm] at hbind
    exact ⟨p.1, p.2, hm, hbind⟩

theorem Runs.unique {a' : α} (h₁ : Runs c m s a s₁) (h₂ : Runs c m s a' s₂) : a' = a ∧ s₂ = s₁ := by
  have := h₁.symm.trans h₂
  cases this
  exact ⟨rfl, rfl⟩

end

def Context.withMargin (c : Context) (margin : Nat) : Context :=
  { c with style := c.style.withMargin margin }

/-- Wherever the right margin is, the step answers and goes on to the state. -/
def Goes {α : Type} (c : Context) (m : Emit α) (s : State) (a : α) (s' : State) : Prop :=
  ∀ margin, Runs (c.withMargin margin) m s a s'

theorem Goes.runs {a : α} {m : Emit α} {s' : State} (h : Goes c m s a s') : Runs c m s a s' :=
  h c.style.indent.margin

theorem Runs.goes {a : α} {m : Emit α} {s' : State} (h : Runs c m s a s')
    (hblind : ∀ margin, m (c.withMargin margin) = m c) : Goes c m s a s' := by
  intro margin
  rw [Runs, ReaderT.run, hblind]
  exact h

theorem Goes.pure (a : α) : Goes c (pure a) s a s := fun _ => rfl

theorem Goes.bind {β : Type} {m : Emit α} {f : α → Emit β} {s₁ s₂ : State} {a : α} {b : β}
    (hm : Goes c m s a s₁) (hf : Goes c (f a) s₁ b s₂) : Goes c (m >>= f) s b s₂ :=
  fun margin => (hm margin).bind (hf margin)

end Annotate

end CodeLayout
