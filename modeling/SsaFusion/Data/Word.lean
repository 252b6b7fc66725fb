/-!
# Words

Integers of programs are 64-bit words in two's complement, and the program's own arithmetic on them wraps around.
Analyses must notice an overflow instead: the operations here give no result when the exact result is not a word.
-/

namespace SsaFusion

/-- A 64-bit integer in two's complement. -/
abbrev Word := Int64

namespace Word

/-- The greatest word, as a number. -/
def greatest : Nat := 9223372036854775807

/-- The word with an exact value, if there is one. -/
def ofInt? (n : Int) : Option Word :=
  if -(greatest + 1) ≤ n ∧ n ≤ greatest then some (Int64.ofInt n) else none

/-- The exact sum, if it is a word. -/
def add? (a b : Word) : Option Word := ofInt? (a.toInt + b.toInt)

/-- The exact product, if it is a word. -/
def mul? (a b : Word) : Option Word := ofInt? (a.toInt * b.toInt)

/-- The quotient of the division with a remainder that is never negative, if there is one and it is a word. -/
def quot? (a b : Word) : Option Word := if b = 0 then none else ofInt? (a.toInt / b.toInt)

/-- The exact quotient of a multiple, if it is a word. -/
def exactQuot? (a b : Word) : Option Word :=
  if b = 0 then none else if a.toInt % b.toInt = 0 then ofInt? (a.toInt / b.toInt) else none

/-- The opposite of a word, where the least word goes to the greatest. -/
def opposite (a : Word) : Word := (ofInt? (-a.toInt)).getD Int64.maxValue

/-- Decimal digits, with a minus sign in front of a negative word. -/
def text (a : Word) : String := toString a.toInt

end Word

end SsaFusion
