import CodeLayout.Style.Field
import CodeLayout.Style.Toml

/-!
# Loading a style

A style is loaded from layers: the built-in style, then style files one after the other, then single
options.  A later layer wins.
-/

namespace CodeLayout.Style

/-- The built-in style as a raw value. -/
def builtin : Value :=
  .table (sections.map fun sec =>
    (sec.key, .table (sec.fields.map fun f => (f.key, (f.get {}).toValue))))

/-- Lay a style file over a raw value.  A key that reads as a path stands for the place that it
leads to. -/
def layFile (base : Value) (text : String) : Except StyleError Value :=
  match Toml.parse? text with
  | some entries =>
    .ok (entries.foldl (fun acc e => Value.assign e.2 ((path? e.1).getD [.key e.1]) acc) base)
  | none => .error .malformedFile

/-- A single option to set. -/
structure Override where
  path : List Step
  value : Value

/-- An override of the option with the given key. -/
def override (key : String) (value : Value) : Except StyleError Override :=
  match path? key with
  | some path => .ok ⟨path, value⟩
  | none => .error .malformedKey

/-- The value that a section holds for each of its fields: by key, or in order if it is a list. -/
def sectionValues (sec : Section) : Value → Except StyleError (List (Field Style × Option Value))
  | .table entries => .ok (sec.fields.map fun f => (f, entries.lookup f.key))
  | .list items => .ok (sec.fields.zipIdx.map fun fi => (fi.1, items[fi.2]?))
  | _ => .error .unfit

/-- Read the options of a section.  What is there is read before what is missing is noted. -/
def readSection (root : Value) (style : Style) (sec : Section) : Except StyleError Style := do
  let some value := root.find? sec.key | .error .unfit
  let values ← sectionValues sec value
  let style ← values.foldlM (fun s fv => match fv.2 with
    | some v => fv.1.read v s
    | none => .ok s) style
  if values.any (·.2.isNone) then .error .unfit else return style

/-- The style that a raw value describes. -/
def ofValue (root : Value) : Except StyleError Style := sections.foldlM (readSection root) {}

/-- Load a style from files and overrides. -/
def load (files : List String) (overrides : List Override) : Except StyleError Style := do
  let layered ← files.foldlM layFile builtin
  ofValue (overrides.foldl (fun acc o => Value.assign o.value o.path acc) layered)

end CodeLayout.Style
