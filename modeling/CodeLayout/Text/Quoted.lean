import CodeLayout.Text.Printable

/-!
# Quoted text

A quoted text stands between double quotes on one line.  Double quotes, backslashes and the common
control characters are written with a backslash, and any other character that does not print by its
code point.
-/

namespace CodeLayout.Text

/-- A character by its code point. -/
def codePoint (c : Char) : List Char :=
  "\\u\x7b".toList ++ Nat.toDigits 16 c.toNat ++ ['\x7d']

/-- A character as it is written inside quotes. -/
def quotedChar (c : Char) : List Char :=
  if c == '\x22' || c == '\\' then ['\\', c]
  else if c == '\n' then ['\\', 'n']
  else if c == '\r' then ['\\', 'r']
  else if c == '\t' then ['\\', 't']
  else if c.toNat == 0 then ['\\', '0']
  else if isPrintable c then [c]
  else codePoint c

/-- A text in quotes. -/
def quoted (s : String) : String :=
  String.ofList ('\x22' :: s.toList.flatMap quotedChar ++ ['\x22'])

end CodeLayout.Text
