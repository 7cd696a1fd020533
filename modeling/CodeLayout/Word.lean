/-!
# Machine words

Offsets, lengths, columns and the numbers of a style are machine words.  Here they are natural
numbers, and a sum of two of them has no limit: it is the sum of the machine words as long as it
stays below `Word.limit`, which a statement names as a hypothesis where a text or a table may go
past it.
The numbers of a style may be any words at all, so what is computed from one of them alone follows
the machine: the lines for some blank lines (`Word.add`) and the signed width of an indent
(`Word.toInt`).
-/

namespace CodeLayout.Word

/-- The number of machine words. -/
def limit : Nat := UInt64.size

/-- The sum of two words, which starts over behind the last one. -/
def add (m n : Nat) : Nat := (m + n) % limit

/-- A word as a signed one: the upper half of the words is below zero. -/
def toInt (n : Nat) : Int := (n : Int).bmod limit

theorem add_of_lt {m n : Nat} (h : m + n < limit) : add m n = m + n := Nat.mod_eq_of_lt h

theorem add_le (m n : Nat) : add m n ≤ m + n := Nat.mod_le _ _

theorem toInt_of_lt {n : Nat} (h : 2 * n < limit) : toInt n = n :=
  Int.bmod_eq_of_le_mul_two (by omega) (by omega)

end CodeLayout.Word
