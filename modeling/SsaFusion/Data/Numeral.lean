/-!
# Numerals

Numbers given as text: blanks around are dropped, a plus sign may stand in front, and then there are decimal digits only.
-/

namespace SsaFusion

/-- The characters with the property White_Space. -/
def isBlank (c : Char) : Bool :=
  let n := c.toNat
  (9 ≤ n && n ≤ 13) || n == 32 || n == 0x85 || n == 0xa0 || n == 0x1680 || (0x2000 ≤ n && n ≤ 0x200a)
    || n == 0x2028 || n == 0x2029 || n == 0x202f || n == 0x205f || n == 0x3000

/-- A text without the blanks around it. -/
def trimmed (cs : List Char) : List Char :=
  ((cs.dropWhile isBlank).reverse.dropWhile isBlank).reverse

/-- The value of a decimal digit. -/
def digit? (c : Char) : Option Nat := if '0' ≤ c ∧ c ≤ '9' then some (c.toNat - '0'.toNat) else none

/-- The number that a list of digits continues. -/
def digits? (acc : Nat) : List Char → Option Nat
  | [] => some acc
  | c :: rest => (digit? c).bind fun d => digits? (10 * acc + d) rest

/-- The number of a numeral, where at least one digit is needed. -/
def numeral? (cs : List Char) : Option Nat :=
  match (match cs with | '+' :: rest => rest | cs => cs) with
  | [] => none
  | ds => digits? 0 ds

/-- The number of a text, if it is below a bound. -/
def numberBelow? (bound : Nat) (s : String) : Option Nat :=
  (numeral? (trimmed s.toList)).filter (fun n => decide (n < bound))

end SsaFusion
