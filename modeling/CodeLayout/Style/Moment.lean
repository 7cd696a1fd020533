import CodeLayout.Text.Number

/-!
# Dates and times in style files

A date is written `1979-05-27`, a time `07:32:00` with or without a fraction of a second, and a date
may have a time behind it, which may have its distance from universal time behind it.  No option is
a date or a time, so only their extent in the text matters: every function of this module answers
the characters behind what it passes, and nothing if that does not stand here.
-/

namespace CodeLayout.Style.Moment

/-- Pass a sign. -/
def sign? (sign : Char) : List Char → Option (List Char)
  | [] => none
  | c :: cs => if c == sign then some cs else none

/-- Read a number of exactly `n` digits that lies between two bounds. -/
def number? (n least most : Nat) (cs : List Char) : Option (Nat × List Char) :=
  let digits := cs.take n
  if digits.length == n && digits.all Char.isDigit then
    let value := Text.decimalValue digits
    if least ≤ value && value ≤ most then some (value, cs.drop n) else none
  else none

/-- Does the year have a leap day? -/
def isLeapYear (year : Nat) : Bool := year % 4 == 0 && (year % 100 != 0 || year % 400 == 0)

/-- The number of days of a month. -/
def daysOf (year month : Nat) : Nat :=
  match month with
  | 2 => if isLeapYear year then 29 else 28
  | 4 | 6 | 9 | 11 => 30
  | _ => 31

/-- Pass a date. -/
def date? (cs : List Char) : Option (List Char) := do
  let (year, cs) ← number? 4 0 9999 cs
  let (month, cs) ← number? 2 1 12 (← sign? '-' cs)
  let (_, cs) ← number? 2 1 (daysOf year month) (← sign? '-' cs)
  return cs

/-- Pass the fraction of a second, if one stands here. -/
def skipFraction (cs : List Char) : List Char :=
  match cs with
  | '.' :: c :: rest => if c.isDigit then rest.dropWhile Char.isDigit else cs
  | _ => cs

/-- Pass a time.  A minute may have a leap second. -/
def time? (cs : List Char) : Option (List Char) := do
  let (_, cs) ← number? 2 0 23 cs
  let (_, cs) ← number? 2 0 59 (← sign? ':' cs)
  let (_, cs) ← number? 2 0 60 (← sign? ':' cs)
  return skipFraction cs

/-- Pass the distance from universal time, if one stands here. -/
def offset? (cs : List Char) : Option (List Char) :=
  match cs with
  | [] => some []
  | c :: rest =>
    if c == 'Z' || c == 'z' then some rest
    else if c == '+' || c == '-' then do
      let (_, cs) ← number? 2 0 23 rest
      let (_, cs) ← number? 2 0 59 (← sign? ':' cs)
      return cs
    else some cs

/-- Pass the time behind a date, if one stands here. -/
def timeOfDay? (cs : List Char) : Option (List Char) :=
  match cs with
  | [] => some []
  | c :: rest =>
    if c == 'T' || c == 't' || c == ' ' then
      match time? rest with
      | some rest => offset? rest
      | none => some cs
    else some cs

/-- Pass a date, a date with a time, or a time. -/
def moment? (cs : List Char) : Option (List Char) :=
  match date? cs with
  | some rest => timeOfDay? rest
  | none => time? cs

end CodeLayout.Style.Moment
