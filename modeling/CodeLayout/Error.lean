import CodeLayout.Parsed

/-!
# Errors of formatting
-/

namespace CodeLayout

/-- Why a source cannot be formatted. -/
inductive LayoutError where
  /-- The source cannot be read into tokens. -/
  | unreadable (error : LexError)
  /-- The source has syntax problems. -/
  | malformed (errors : List SyntaxError)
  /-- A token was asked for that is not the next one. -/
  | outOfStep (index offset cursor : Nat)
  /-- The text at an offset does not follow the one that ends at another offset. -/
  | outOfOrder (index offset after : Nat)
  /-- Two changes overlap. -/
  | overlap (offset : Nat)
  /-- A change of so many bytes is no slice of the text. -/
  | outOfBounds (offset length : Nat)
deriving DecidableEq, Repr

namespace LayoutError

/-- The wording for an item out of place, up to what was expected. -/
def outOfSync (index offset : Nat) : String :=
  "token cursor desynchronized at token " ++ toString index ++ " (offset " ++ toString offset
    ++ "): expected "

/-- The wording of an error. -/
def message : LayoutError → String
  | unreadable e => e.problem.message
  | malformed errors =>
    toString errors.length ++ " syntax error(s), first: "
      ++ (errors.head?.map SyntaxError.message).getD ""
  | outOfStep index offset cursor =>
    outOfSync index offset ++ "token " ++ toString index ++ " at or after the cursor position "
      ++ toString cursor
  | outOfOrder index offset after =>
    outOfSync index offset ++ "text tokens in source order after offset " ++ toString after
  | overlap offset => "overlapping edits at offset " ++ toString offset
  | outOfBounds offset length =>
    "edit at offset " ++ toString offset ++ " lies outside the buffer of " ++ toString length
      ++ " bytes"

/-- The stretches to blame, each with what to say about it. -/
def labels : LayoutError → List (Span × String)
  | unreadable e => [(⟨e.start, e.stop⟩, e.problem.message)]
  | malformed errors => errors.map fun e => (e.span, e.message)
  | e@(outOfStep _ offset _) => [(⟨offset, offset⟩, e.message)]
  | e@(outOfOrder _ offset _) => [(⟨offset, offset⟩, e.message)]
  | e@(overlap offset) => [(⟨offset, offset⟩, e.message)]
  | e@(outOfBounds offset _) => [(⟨offset, offset⟩, e.message)]

end LayoutError

end CodeLayout
