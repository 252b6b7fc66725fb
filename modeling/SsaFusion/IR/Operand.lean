import SsaFusion.Data.Word

/-!
# Operands

Values of a function are numbered, and an operand is either a literal or the number of a value.
-/

namespace SsaFusion

/-- Blocks of a function are numbered from zero. -/
abbrev BlockId := Nat

/-- Values of a function are numbered from zero. -/
abbrev ValueId := Nat

/-- A constant of the program. -/
inductive Literal where
  | int (n : Word)
  | bool (b : Bool)
deriving DecidableEq, Inhabited

/-- What an instruction or a terminator reads. -/
inductive Operand where
  | lit (l : Literal)
  | var (v : ValueId)
deriving DecidableEq, Inhabited

namespace Operand

/-- The value that an operand reads, if it is not a literal. -/
def var? : Operand → Option ValueId
  | lit _ => none
  | var v => some v

/-- The operand with reads of one value turned into reads of another. -/
def rename (old new : ValueId) (o : Operand) : Operand := if o = var old then var new else o

end Operand

/-- The values read by a list of operands, in order and with repetition. -/
def valuesOf (os : List Operand) : List ValueId := os.filterMap Operand.var?

end SsaFusion
