/-!
# Numbers of 64 bits
-/

namespace CodeLayout.Text

/-- The least number that takes more than 64 bits. -/
def wordLimit : Nat := 0x10000000000000000

/-- The least number that takes more than 64 bits with its sign. -/
def signedLimit : Nat := 0x8000000000000000

/-- Does the number take at most 64 bits with its sign? -/
def fitsSigned (n : Int) : Bool := -(signedLimit : Int) ≤ n && n < signedLimit

/-- A number of 64 bits read as one with a sign. -/
def signed (n : Nat) : Int := if n < signedLimit then n else (n : Int) - wordLimit

/-- The value of decimal digits. -/
def decimalValue (digits : List Char) : Nat :=
  digits.foldl (fun n c => 10 * n + (c.toNat - '0'.toNat)) 0

/-- A number of at most 64 bits: decimal digits, after a plus sign or without. -/
def number? (text : String) : Option Nat :=
  let digits := match text.toList with
    | '+' :: rest => rest
    | cs => cs
  if digits.isEmpty || !digits.all Char.isDigit then none
  else if decimalValue digits < wordLimit then some (decimalValue digits)
  else none

end CodeLayout.Text
