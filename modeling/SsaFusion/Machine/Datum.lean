import SsaFusion.IR.Text

/-!
# Run-time data and faults

Running a function yields integers, booleans and pointers into allocated arrays. A run that cannot go on ends in a fault.
-/

namespace SsaFusion

/-- What the machine computes with. -/
inductive Datum where
  | int (n : Word)
  | bool (b : Bool)
  /-- A cell of an allocated array, by number of the allocation and offset. -/
  | ptr (allocation : Nat) (offset : Word)
deriving DecidableEq, Inhabited

/-- The sorts of data. -/
inductive DatumKind where
  | integer | boolean | pointer
deriving DecidableEq, Inhabited

namespace DatumKind

def text : DatumKind → String
  | integer => "integer"
  | boolean => "boolean"
  | pointer => "pointer"

end DatumKind

namespace Datum

def kind : Datum → DatumKind
  | int _ => .integer
  | bool _ => .boolean
  | ptr _ _ => .pointer

def int? : Datum → Option Word
  | int n => some n
  | _ => none

def ofLiteral : Literal → Datum
  | .int n => int n
  | .bool b => bool b

def text : Datum → String
  | int n => n.text
  | bool b => if b then "true" else "false"
  | ptr a o => "&frame" ++ toString a ++ "[" ++ o.text ++ "]"

end Datum

/-- Why a run cannot go on. -/
inductive Fault where
  | unknownValue (value : ValueId)
  | typeMismatch (expected : DatumKind) (found : Datum)
  | divisionByZero
  | outOfBounds (offset : Word) (size : Nat)
  | budgetExhausted (limit : Nat)
  | unreachable (block : BlockId)
  | missingPhiSource (block pred : BlockId)
  | arityMismatch (expected found : Nat)
  /-- An array would have more cells than an array can have. -/
  | arrayTooLarge (size : Nat)
  /-- Control went to a block that does not exist. -/
  | missingBlock (block : BlockId)
  /-- A pointer names an allocation that was never made. -/
  | missingAllocation (allocation : Nat)
deriving DecidableEq, Inhabited

def Fault.message : Fault → String
  | unknownValue v => "value " ++ valueText v ++ " read before it was defined"
  | typeMismatch k d => "expected " ++ k.text ++ ", found " ++ d.text
  | divisionByZero => "division by zero"
  | outOfBounds o n => "access at offset " ++ o.text ++ " outside an allocation of " ++ toString n ++ " cells"
  | budgetExhausted n => "step budget of " ++ toString n ++ " exhausted"
  | unreachable b => "reached unreachable terminator of " ++ blockText b
  | missingPhiSource b p => "phi in " ++ blockText b ++ " has no source for predecessor " ++ blockText p
  | arityMismatch e n => "function expects " ++ toString e ++ " argument(s), got " ++ toString n
  | arrayTooLarge n => "array of " ++ toString n ++ " cells is too large"
  | missingBlock b => "block " ++ toString b ++ " does not exist"
  | missingAllocation a => "allocation " ++ toString a ++ " does not exist"

end SsaFusion
