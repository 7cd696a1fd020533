/-!
# Spans

A span is a stretch of a text between two byte offsets.
-/

namespace CodeLayout

/-- A stretch from one offset to another. -/
structure Span where
  start : Nat
  stop : Nat
deriving DecidableEq, Repr, Inhabited

namespace Span

/-- The part of a span that lies inside a text of the given size; a span that ends before it starts
is empty. -/
def clamp (s : Span) (size : Nat) : Span :=
  let start := min s.start size
  ⟨start, max start (min s.stop size)⟩

/-- Is the offset at or after the start and before the stop? -/
def contains (s : Span) (offset : Nat) : Bool := s.start ≤ offset && offset < s.stop

end Span

end CodeLayout
