import CodeLayout.Text.Blank
import CodeLayout.Text.Number

/-!
# Raw style values

A style file holds values that are not yet known to fit an option: scalars, lists and tables.
Layers of values are merged key by key; keys ignore the case of letters.
-/

namespace CodeLayout.Style

/-- Why a style cannot be used. -/
inductive StyleError where
  /-- A style file is not well formed. -/
  | malformedFile
  /-- A key is not a path. -/
  | malformedKey
  /-- A scalar is expected that this value cannot be converted to. -/
  | wrongType
  /-- A value is missing or none of those that an option accepts. -/
  | unfit
deriving DecidableEq, Repr

/-- The name of the cause. -/
def StyleError.label : StyleError → String
  | malformedFile => "FileParse"
  | malformedKey => "PathParse"
  | wrongType => "Type"
  | unfit => "Message"

/-- A raw value. -/
inductive Value where
  | nil
  | flag (value : Bool)
  | int (value : Int)
  | float (value : Float)
  | text (value : String)
  | list (items : List Value)
  | table (entries : List (String × Value))
deriving Inhabited, Repr

/-! ### Paths -/

/-- A step into a value: to the entry of a table or to an item of a list.  A negative position
counts from the end of the list. -/
inductive Step where
  | key (name : String)
  | index (position : Int)
deriving DecidableEq, Repr

/-- The characters of a name in a path. -/
def isPathChar (c : Char) : Bool := c.isAlphanum || c == ' ' || c == '_' || c == '-'

/-- The position in brackets, after the opening one, and what follows the closing one.  It takes at
most 64 bits. -/
def position? (cs : List Char) : Option (Int × List Char) :=
  let inner := cs.dropWhile Text.isTabOrSpace
  let (negative, inner) := match inner with
    | '-' :: rest => (true, rest)
    | rest => (false, rest)
  let digits := inner.takeWhile Char.isDigit
  let value : Int := Text.decimalValue digits
  let position := if negative then -value else value
  match (inner.drop digits.length).dropWhile Text.isTabOrSpace with
  | ']' :: rest =>
    if !digits.isEmpty && Text.fitsSigned position then some (position, rest) else none
  | _ => none

/-- The steps after the first name of a path: a dot and a name, or a position in brackets.  Every
step takes characters, so there are no more than `n` of them in `n` characters. -/
def pathSteps : Nat → List Char → Option (List Step)
  | _, [] => some []
  | n + 1, '.' :: cs =>
    match cs.takeWhile isPathChar with
    | [] => none
    | name => do
      return .key (String.ofList name) :: (← pathSteps n (cs.drop name.length))
  | n + 1, '[' :: cs => do
    let (position, rest) ← position? cs
    return .index position :: (← pathSteps n rest)
  | _, _ => none

/-- A path: a name and further steps. -/
def path? (text : String) : Option (List Step) :=
  match text.toList.takeWhile isPathChar with
  | [] => none
  | name => do
    let rest := text.toList.drop name.length
    return .key (String.ofList name) :: (← pathSteps rest.length rest)

/-! ### Layers -/

namespace Value

/-- A key as it is compared, in lower case.  The names of options are ASCII, and beyond ASCII only
the Kelvin sign has an ASCII letter as its lower case. -/
def foldKey (name : String) : String := name.map fun c => if c == '\u212a' then 'k' else c.toLower

/-- The entry of a table. -/
def find? (name : String) : Value → Option Value
  | table entries => entries.lookup name
  | _ => none

/-- Replace the entry of the name, or add it. -/
def replaceEntry (name : String) (value : Value) :
    List (String × Value) → List (String × Value)
  | [] => [(name, value)]
  | (k, v) :: rest =>
    if k == name then (k, value) :: rest else (k, v) :: replaceEntry name value rest

/-- Change what lies one step inside a value.  A value that is not of the right form gives way to an
empty one that is. -/
def descend (step : Step) (change : Value → Value) (value : Value) : Value :=
  match step with
  | .key name =>
    let entries := match value with
      | table entries => entries
      | _ => []
    let name := foldKey name
    table (replaceEntry name (change ((entries.lookup name).getD nil)) entries)
  | .index position =>
    let items := match value with
      | list items => items
      | _ => []
    let place := if 0 ≤ position then position.toNat else items.length - position.natAbs
    let padded := items ++ List.replicate (place + 1 - items.length) nil
    list (padded.modify place change)

mutual

/-- Lay a value over another: a table is merged entry by entry, anything else replaces what was
there. -/
def merge (old : Value) : Value → Value
  | table entries =>
    mergeEntries (match old with
      | nil => table []
      | other => other) entries
  | nil => nil
  | flag b => flag b
  | int n => int n
  | float x => float x
  | text s => text s
  | list items => list items

/-- Lay the entries of a table over a value. -/
def mergeEntries (old : Value) : List (String × Value) → Value
  | [] => old
  | (name, v) :: rest => mergeEntries (descend (.key name) (fun o => merge o v) old) rest

end

/-- Lay a value over what lies at a path; an item of a list is replaced. -/
def assign (value : Value) : List Step → Value → Value
  | [], old => old.merge value
  | [.index position], old => descend (.index position) (fun _ => value) old
  | step :: steps, old => descend step (assign value steps) old

end Value

end CodeLayout.Style
