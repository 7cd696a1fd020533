import CodeLayout.Error

/-!
# Edits

An edit replaces a stretch of a text.  A list of edits that do not overlap is applied from left to
right; edits at the same place keep their order.
-/

namespace CodeLayout

/-- Replace `length` bytes at `offset` with `text`. -/
structure Edit where
  offset : Nat
  length : Nat
  text : String
deriving DecidableEq, Repr, Inhabited

namespace Edit

/-- The offset right after the replaced stretch. -/
def stop (e : Edit) : Nat := e.offset + e.length

/-- The text that an edit replaces, if its stretch is a slice. -/
def old? (e : Edit) (source : String) : Option String := Text.slice? source e.offset e.stop

/-- The edits by their offsets; those with the same offset keep their order. -/
def sorted (edits : List Edit) : List Edit := edits.mergeSort fun a b => a.offset ≤ b.offset

/-- Apply edits in their order to the text from an offset on. -/
def applyFrom (source : String) (start : Nat) : List Edit → Except LayoutError String
  | [] => .ok (Text.after source start)
  | e :: rest =>
    if (e.old? source).isNone then .error (.outOfBounds e.offset e.length)
    else if e.offset < start then .error (.overlap e.offset)
    else do
      let tail ← applyFrom source e.stop rest
      return Text.slice source start e.offset ++ e.text ++ tail

/-- Apply edits, whatever their order, unless they overlap. -/
def apply (source : String) (edits : List Edit) : Except LayoutError String :=
  applyFrom source 0 (sorted edits)

end Edit

end CodeLayout
