import CodeLayout.Style.Moment
import CodeLayout.Style.Value
import CodeLayout.Text.Number

/-!
# Style files

Style files are written in TOML: lines that open a table and lines that give a key a value.
`lines?` reads the lines, `Doc.build?` puts them together and refuses what is defined twice.
-/

namespace CodeLayout.Style.Toml

/-- A reader of characters: what it reads and what is left, or a refusal. -/
abbrev Read (α : Type) := List Char → Option (α × List Char)

/-! ### Blanks and comments -/

/-- Pass blanks inside a line. -/
def skipBlanks (cs : List Char) : List Char := cs.dropWhile Text.isTabOrSpace

/-- A character that may stand in a comment or a string on one line. -/
def isPlain (c : Char) : Bool := c == '\t' || (' ' ≤ c && c.toNat != 127)

/-- Pass a comment, if one starts here. -/
def skipComment : List Char → List Char
  | '#' :: cs => cs.dropWhile isPlain
  | cs => cs

/-- Pass a line break, of which the end of the file is one. -/
def lineBreak? : List Char → Option (List Char)
  | [] => some []
  | '\n' :: cs => some cs
  | '\r' :: '\n' :: cs => some cs
  | _ => none

/-- Pass blanks, a comment and a line break. -/
def endOfLine? (cs : List Char) : Option (List Char) := lineBreak? (skipComment (skipBlanks cs))

/-- Pass blanks, comments and line breaks, as between the items of a list. -/
def skipLines : Nat → List Char → List Char
  | 0, cs => cs
  | n + 1, cs =>
    let cs := skipComment (skipBlanks cs)
    match cs with
    | '\n' :: rest => skipLines n rest
    | '\r' :: '\n' :: rest => skipLines n rest
    | cs => cs

/-! ### Strings -/

/-- The value of some hexadecimal digits. -/
def hexValue? (cs : List Char) : Option Nat :=
  cs.foldl (fun acc c => do
    let n ← acc
    if c.isDigit then return n * 16 + (c.toNat - '0'.toNat)
    else if 'a' ≤ c && c ≤ 'f' then return n * 16 + (c.toNat - 'a'.toNat + 10)
    else if 'A' ≤ c && c ≤ 'F' then return n * 16 + (c.toNat - 'A'.toNat + 10)
    else none) (some 0)

/-- The character with the given number, written with so many hexadecimal digits. -/
def escapedNumber? (digits : Nat) (cs : List Char) : Option (Char × List Char) := do
  let code := cs.take digits
  if code.length != digits then none
  let n ← hexValue? code
  if n.isValidChar then return (Char.ofNat n, cs.drop digits) else none

/-- The character after a backslash. -/
def escaped? : Read Char
  | 'b' :: cs => some ('\x08', cs)
  | 't' :: cs => some ('\t', cs)
  | 'n' :: cs => some ('\n', cs)
  | 'f' :: cs => some ('\x0c', cs)
  | 'r' :: cs => some ('\r', cs)
  | '\x22' :: cs => some ('\x22', cs)
  | '\\' :: cs => some ('\\', cs)
  | 'u' :: cs => escapedNumber? 4 cs
  | 'U' :: cs => escapedNumber? 8 cs
  | _ => none

/-- A string on one line, after its opening quote, with escapes. -/
def basic? : Nat → Read (List Char)
  | 0, _ => none
  | _, [] => none
  | _, '\x22' :: cs => some ([], cs)
  | n + 1, '\\' :: cs => do
    let (c, cs) ← escaped? cs
    let (rest, cs) ← basic? n cs
    return (c :: rest, cs)
  | n + 1, c :: cs => do
    if !isPlain c then none
    let (rest, cs) ← basic? n cs
    return (c :: rest, cs)

/-- A string on one line, after its opening quote, without escapes. -/
def literal? : Read (List Char)
  | [] => none
  | c :: cs =>
    if c == '\x27' then some ([], cs)
    else if !isPlain c then none
    else do
      let (rest, cs) ← literal? cs
      return (c :: rest, cs)

/-- The end of a string over several lines: three quotes, before which up to two more belong to the
string. -/
def closing? (quote : Char) (cs : List Char) : Option (List Char × List Char) :=
  let quotes := (cs.takeWhile (· == quote)).length
  if quotes < 3 then none
  else
    let kept := min (quotes - 3) 2
    some (List.replicate kept quote, cs.drop (kept + 3))

/-- Pass the blanks and line breaks after a backslash at the end of a line. -/
def skipFolded : List Char → List Char
  | [] => []
  | '\r' :: '\n' :: cs => skipFolded cs
  | c :: cs => if Text.isTabOrSpace c || c == '\n' then skipFolded cs else c :: cs

/-- Does a backslash here end its line? -/
def foldsLine (cs : List Char) : Bool :=
  match skipBlanks cs with
  | '\n' :: _ => true
  | '\r' :: '\n' :: _ => true
  | _ => false

/-- A string over several lines, after its opening quotes.  Its lines end with line feeds. -/
def multiline? (quote : Char) : Nat → Read (List Char)
  | 0, _ => none
  | _, [] => none
  | n + 1, c :: cs =>
    match closing? quote (c :: cs) with
    | some found => some found
    | none =>
      if c == '\\' && quote == '\x22' then
        if foldsLine cs then multiline? quote n (skipFolded cs)
        else do
          let (e, cs) ← escaped? cs
          let (rest, cs) ← multiline? quote n cs
          return (e :: rest, cs)
      else if isPlain c || c == '\n' then do
        let (rest, cs) ← multiline? quote n cs
        return (c :: rest, cs)
      else
        match c, cs with
        | '\r', '\n' :: cs => do
          let (rest, cs) ← multiline? quote n cs
          return ('\n' :: rest, cs)
        | _, _ => none

/-- A line break right after the opening quotes is not part of the string. -/
def skipFirstBreak : List Char → List Char
  | '\n' :: cs => cs
  | '\r' :: '\n' :: cs => cs
  | cs => cs

/-- A string in any of its four forms. -/
def string? (cs : List Char) : Option (String × List Char) :=
  match cs with
  | '\x22' :: '\x22' :: '\x22' :: rest =>
    (multiline? '\x22' (rest.length + 1) (skipFirstBreak rest)).map fun r =>
      (String.ofList r.1, r.2)
  | '\x27' :: '\x27' :: '\x27' :: rest =>
    (multiline? '\x27' (rest.length + 1) (skipFirstBreak rest)).map
      fun r => (String.ofList r.1, r.2)
  | '\x22' :: rest => (basic? (rest.length + 1) rest).map fun r => (String.ofList r.1, r.2)
  | '\x27' :: rest => (literal? rest).map fun r => (String.ofList r.1, r.2)
  | _ => none

/-! ### Numbers and truth values -/

/-- The digits of a number, between which single underscores may stand. -/
def groupedDigits? (isDigit : Char → Bool) : List Char → Option (List Char)
  | [] => none
  | [c] => if isDigit c then some [c] else none
  | c :: '_' :: d :: rest =>
    if isDigit c && isDigit d then (groupedDigits? isDigit (d :: rest)).map (c :: ·) else none
  | c :: rest => if isDigit c then (groupedDigits? isDigit rest).map (c :: ·) else none

/-- A number that fits a signed word of 64 bits. -/
def word? (n : Int) : Option Value :=
  if Text.fitsSigned n then some (.int n) else none

/-- The value of digits in a base. -/
def digitsValue (base : Nat) (cs : List Char) : Nat :=
  cs.foldl (fun n c => n * base + (hexValue? [c]).getD 0) 0

/-- A digit of a base. -/
def isDigitOf (base : Nat) (c : Char) : Bool :=
  match hexValue? [c] with
  | some d => d < base
  | none => false

/-- Digits that are a decimal: no zero in front of others. -/
def decimal? (cs : List Char) : Option Nat := do
  let digits ← groupedDigits? Char.isDigit cs
  if digits.length > 1 && digits.head? == some '0' then none
  return digitsValue 10 digits

/-- The sign in front of a number, and the rest. -/
def sign (cs : List Char) : Bool × List Char :=
  match cs with
  | '-' :: rest => (true, rest)
  | '+' :: rest => (false, rest)
  | rest => (false, rest)

/-- An integer, in base ten with a sign, or in another base with its mark. -/
def integer? (cs : List Char) : Option Value :=
  let based (base : Nat) (rest : List Char) : Option Value := do
    let digits ← groupedDigits? (isDigitOf base) rest
    word? (digitsValue base digits)
  match cs with
  | '0' :: 'x' :: rest => based 16 rest
  | '0' :: 'o' :: rest => based 8 rest
  | '0' :: 'b' :: rest => based 2 rest
  | _ => do
    let (negative, rest) := sign cs
    let n ← decimal? rest
    word? (if negative then -(n : Int) else n)

/-- The power of ten after an exponent mark. -/
def exponent? (cs : List Char) : Option Int := do
  let (negative, rest) := sign cs
  let digits ← groupedDigits? Char.isDigit rest
  let n := digitsValue 10 digits
  return if negative then -(n : Int) else n

/-- The number `digits · 10 ^ power`. -/
def scientific (negative : Bool) (digits : Nat) (power : Int) : Float :=
  let x := if power < 0 then Float.ofScientific digits true power.natAbs
    else Float.ofScientific digits false power.natAbs
  if negative then -x else x

/-- Infinity. -/
def infinity : Float := 1.0 / 0.0

/-- The number, unless it is too large to be told from infinity. -/
def finite? (x : Float) : Option Value := if x == infinity then none else some (.float x)

/-- A number with a fraction, an exponent or both, or one of the two special ones. -/
def float? (cs : List Char) : Option Value := do
  let (negative, rest) := sign cs
  if rest == ['i', 'n', 'f'] then return .float (if negative then -infinity else infinity)
  if rest == ['n', 'a', 'n'] then return .float (0.0 / 0.0)
  let isMark (c : Char) : Bool := c == 'e' || c == 'E'
  let mantissa := rest.takeWhile (!isMark ·)
  let power ← match rest.drop mantissa.length with
    | [] => some 0
    | _ :: digits => exponent? digits
  let whole := mantissa.takeWhile (· != '.')
  let n ← decimal? whole
  match mantissa.drop whole.length with
  | [] =>
    if mantissa.length == rest.length then none
    else finite? (scientific negative n power)
  | _ :: fraction =>
    let digits ← groupedDigits? Char.isDigit fraction
    let scale := digits.length
    let n := n * Nat.pow 10 scale + digitsValue 10 digits
    finite? (scientific negative n (power - scale))

/-- A value that is neither a string, a list nor a table. -/
def scalar? (cs : List Char) : Option Value :=
  if cs == "true".toList then some (.flag true)
  else if cs == "false".toList then some (.flag false)
  else integer? cs <|> float? cs

/-- A character of such a value. -/
def isScalarChar (c : Char) : Bool := c.isAlphanum || c == '_' || c == '+' || c == '-' || c == '.'

/-! ### Keys -/

/-- A character of a key without quotes. -/
def isBareChar (c : Char) : Bool := c.isAlphanum || c == '_' || c == '-'

/-- One part of a key. -/
def keyPart? (cs : List Char) : Option (String × List Char) :=
  match cs with
  | '\x22' :: rest => (basic? (rest.length + 1) rest).map fun r => (String.ofList r.1, r.2)
  | '\x27' :: rest => (literal? rest).map fun r => (String.ofList r.1, r.2)
  | _ =>
    match cs.takeWhile isBareChar with
    | [] => none
    | part => some (String.ofList part, cs.drop part.length)

/-- The number of levels that keys and values may not reach. -/
def depthLimit : Nat := 80

/-- A key: parts with dots between them, and blanks around the dots; `n` bounds their number. -/
def keyParts? : Nat → Read (List String)
  | 0, _ => none
  | n + 1, cs => do
    let (part, cs) ← keyPart? (skipBlanks cs)
    match skipBlanks cs with
    | '.' :: rest =>
      let (parts, cs) ← keyParts? n rest
      return (part :: parts, cs)
    | cs => return ([part], cs)

/-- A key of less parts than the limit. -/
def key? : Read (List String) := keyParts? (depthLimit - 1)

/-! ### Values -/

/-- A table in the making: its entries in order, with the way each table came about. -/
inductive Doc where
  /-- A value that is complete. -/
  | closed (value : Value)
  /-- A table that so far is only the way to another one. -/
  | implied (entries : List (String × Doc))
  /-- A table that was opened by its name. -/
  | opened (entries : List (String × Doc))
  /-- A table that came about by a key with dots. -/
  | dotted (entries : List (String × Doc))
  /-- A list of tables, the last one first. -/
  | rows (last : List (String × Doc)) (before : List (List (String × Doc)))
deriving Inhabited

namespace Doc

/-- Replace the entry of the name, or add it at the end. -/
def put (name : String) (doc : Doc) : List (String × Doc) → List (String × Doc)
  | [] => [(name, doc)]
  | (k, d) :: rest => if k == name then (k, doc) :: rest else (k, d) :: put name doc rest

/-- Give a key a value below the entries of a table; `none` if it has one.  A key with dots may pass
tables that were not opened by their names, and lists of tables at their last one, but its value
goes into a table of dots only; `takes` tells whether the entries may take it. -/
def assign? (value : Doc) (takes : Bool) :
    List String → List (String × Doc) → Option (List (String × Doc))
  | [], _ => none
  | [name], entries =>
    if takes && (entries.lookup name).isNone then some (put name value entries) else none
  | name :: names, entries =>
    match entries.lookup name with
    | none => do return put name (dotted (← assign? value true names [])) entries
    | some (dotted es) => do return put name (dotted (← assign? value true names es)) entries
    | some (implied es) => do return put name (implied (← assign? value false names es)) entries
    | some (rows last before) => do
      return put name (rows (← assign? value false names last) before) entries
    | some (opened _) => none
    | some (closed _) => none

mutual

/-- The value of a table in the making. -/
def toValue : Doc → Value
  | closed v => v
  | implied es => .table (toEntries es)
  | opened es => .table (toEntries es)
  | dotted es => .table (toEntries es)
  | rows last before => .list (toRows before ++ [.table (toEntries last)])

/-- The entries of a table. -/
def toEntries : List (String × Doc) → List (String × Value)
  | [] => []
  | (k, d) :: rest => (k, toValue d) :: toEntries rest

/-- The tables of a list, the first one first. -/
def toRows : List (List (String × Doc)) → List Value
  | [] => []
  | es :: rest => toRows rest ++ [.table (toEntries es)]

end

end Doc

mutual

/-- A value, with the number of levels that it may take. -/
def value? : Nat → Nat → Read Value
  | 0, _, _ => none
  | n + 1, levels, cs =>
    match levels, cs with
    | 0, '[' :: _ => none
    | 0, '\x7b' :: _ => none
    | levels + 1, '[' :: rest => (items? n levels rest).map fun r => (.list r.1, r.2)
    | levels + 1, '\x7b' :: rest =>
      match skipBlanks rest with
      | '\x7d' :: rest => some (.table [], rest)
      | rest => (members? n levels [] rest).map fun r => (.table (Doc.toEntries r.1), r.2)
    | _, '\x22' :: _ => (string? cs).map fun r => (.text r.1, r.2)
    | _, '\x27' :: _ => (string? cs).map fun r => (.text r.1, r.2)
    | _, cs =>
      match Moment.moment? cs with
      | some rest => some (.text (String.ofList (cs.take (cs.length - rest.length))), rest)
      | none => do
        let token := cs.takeWhile isScalarChar
        return (← scalar? token, cs.drop token.length)

/-- The items of a list up to its closing bracket. -/
def items? : Nat → Nat → Read (List Value)
  | 0, _, _ => none
  | n + 1, levels, cs =>
    match skipLines (n + 1) cs with
    | ']' :: rest => some ([], rest)
    | cs => do
      let (v, cs) ← value? n levels cs
      match skipLines (n + 1) cs with
      | ',' :: rest =>
        let (vs, cs) ← items? n levels rest
        return (v :: vs, cs)
      | ']' :: rest => return ([v], rest)
      | _ => none

/-- The members of a table on one line up to its closing brace. -/
def members? : Nat → Nat → List (String × Doc) → Read (List (String × Doc))
  | 0, _, _, _ => none
  | n + 1, levels, entries, cs => do
    let (name, cs) ← key? cs
    let '=' :: cs := skipBlanks cs | none
    let (v, cs) ← value? n levels (skipBlanks cs)
    let entries ← Doc.assign? (.closed v) true name entries
    match skipBlanks cs with
    | ',' :: rest => members? n levels entries rest
    | '\x7d' :: rest => return (entries, rest)
    | _ => none

end

/-! ### Lines -/

/-- A line of a style file. -/
inductive Line where
  | opens (name : List String)
  | opensRow (name : List String)
  | gives (name : List String) (value : Value)

/-- The line that starts here and is not empty, and what follows its end. -/
def line? (fuel : Nat) (cs : List Char) : Option (Line × List Char) :=
  match cs with
  | '[' :: '[' :: rest => do
    let (name, cs) ← key? rest
    let ']' :: ']' :: cs := skipBlanks cs | none
    return (.opensRow name, ← endOfLine? cs)
  | '[' :: rest => do
    let (name, cs) ← key? rest
    let ']' :: cs := skipBlanks cs | none
    return (.opens name, ← endOfLine? cs)
  | _ => do
    let (name, cs) ← key? cs
    let '=' :: cs := skipBlanks cs | none
    let (v, cs) ← value? fuel (depthLimit - 1) (skipBlanks cs)
    return (.gives name v, ← endOfLine? cs)

/-- All lines of a file. -/
def lines? (fuel : Nat) : Nat → List Char → Option (List Line)
  | 0, cs => if cs.isEmpty then some [] else none
  | n + 1, cs =>
    match skipLines fuel cs with
    | [] => some []
    | cs => do
      let (line, rest) ← line? fuel cs
      return line :: (← lines? fuel n rest)

/-! ### Putting lines together -/

namespace Doc

/-- Change the entries of the table of the given name, opening the tables on the way to it; a list
of tables is entered at its last one. -/
def within? (change : List (String × Doc) → Option (List (String × Doc))) :
    List String → List (String × Doc) → Option (List (String × Doc))
  | [], entries => change entries
  | name :: names, entries =>
    match entries.lookup name with
    | none => do return put name (implied (← within? change names [])) entries
    | some (implied es) => do return put name (implied (← within? change names es)) entries
    | some (opened es) => do return put name (opened (← within? change names es)) entries
    | some (dotted es) => do return put name (dotted (← within? change names es)) entries
    | some (rows last before) => do
      return put name (rows (← within? change names last) before) entries
    | some (closed _) => none

/-- Open a table by its name.  It may have been implied, but not opened. -/
def open? (name : String) (entries : List (String × Doc)) : Option (List (String × Doc)) :=
  match entries.lookup name with
  | none => some (put name (opened []) entries)
  | some (implied es) => some (put name (opened es) entries)
  | some _ => none

/-- Open the next table of a list. -/
def openRow? (name : String) (entries : List (String × Doc)) : Option (List (String × Doc)) :=
  match entries.lookup name with
  | none => some (put name (rows [] []) entries)
  | some (rows last before) => some (put name (rows [] (last :: before)) entries)
  | some _ => none

/-- Put lines together, the ones that give values going to the table that was opened last. -/
def build? (current : List String) (entries : List (String × Doc)) :
    List Line → Option (List (String × Doc))
  | [] => some entries
  | .opens name :: rest => do
    let last ← name.getLast?
    build? name (← within? (open? last) name.dropLast entries) rest
  | .opensRow name :: rest => do
    let last ← name.getLast?
    build? name (← within? (openRow? last) name.dropLast entries) rest
  | .gives name value :: rest => do
    build? current (← within? (assign? (closed value) true name) current entries) rest

end Doc

/-- The entries of a style file; `none` if it is not well formed. -/
def parse? (text : String) : Option (List (String × Value)) := do
  let cs := match text.toList with
    | '\ufeff' :: cs => cs
    | cs => cs
  let fuel := cs.length + 1
  let entries ← Doc.build? [] [] (← lines? fuel fuel cs)
  return Doc.toEntries entries

end CodeLayout.Style.Toml
