import SsaFusion.Data.Sorting
import SsaFusion.IR.Operand

/-!
# Instructions

An instruction computes at most one value and never transfers control. A phi picks the operand that belongs to the
edge on which its block was entered.
-/

namespace SsaFusion

/-- Binary operators. -/
inductive BinOp where
  | add | sub | mul | div | rem
  | eq | ne | lt | le | gt | ge
  | and | or
deriving DecidableEq, Inhabited

namespace BinOp

/-- Operators that compare two operands and give a boolean. -/
def isComparison : BinOp → Bool
  | eq | ne | lt | le | gt | ge => true
  | _ => false

/-- The operator that gives the same result on exchanged operands; operators without direction stay. -/
def swapped : BinOp → BinOp
  | lt => gt
  | le => ge
  | gt => lt
  | ge => le
  | op => op

/-- The comparison that holds exactly when this one does not. -/
def negated? : BinOp → Option BinOp
  | eq => some ne
  | ne => some eq
  | lt => some ge
  | le => some gt
  | gt => some le
  | ge => some lt
  | _ => none

end BinOp

/-- Unary operators: arithmetic and logical negation. -/
inductive UnOp where
  | neg | not
deriving DecidableEq, Inhabited

/-- What an instruction does. -/
inductive Op where
  /-- Copies an operand. -/
  | assign (dest : ValueId) (source : Operand)
  | unary (op : UnOp) (dest : ValueId) (source : Operand)
  | binary (op : BinOp) (dest : ValueId) (left right : Operand)
  /-- Picks the operand listed for the block that control came from. -/
  | phi (dest : ValueId) (sources : List (BlockId × Operand))
  /-- Allocates an array of zeroed cells. -/
  | alloc (dest : ValueId) (size : Nat)
  /-- Moves a pointer by a number of cells. -/
  | shift (dest : ValueId) (base offset : Operand)
  | load (dest : ValueId) (address : Operand)
  | store (address value : Operand)
  | nop
deriving DecidableEq, Inhabited

namespace Op

/-- The value that is computed, if there is one. -/
def dest? : Op → Option ValueId
  | assign d _ | unary _ d _ | binary _ d _ _ | phi d _ | alloc d _ | shift d _ _ | load d _ => some d
  | store _ _ | nop => none

/-- The operands in order, literals included. -/
def operands : Op → List Operand
  | assign _ s | unary _ _ s => [s]
  | binary _ _ l r => [l, r]
  | phi _ sources => sources.map (·.2)
  | shift _ b o => [b, o]
  | load _ a => [a]
  | store a v => [a, v]
  | alloc _ _ | nop => []

/-- The operation with every operand replaced. -/
def mapOperands (g : Operand → Operand) : Op → Op
  | assign d s => assign d (g s)
  | unary op d s => unary op d (g s)
  | binary op d l r => binary op d (g l) (g r)
  | phi d sources => phi d (sources.map fun s => (s.1, g s.2))
  | alloc d n => alloc d n
  | shift d b o => shift d (g b) (g o)
  | load d a => load d (g a)
  | store a v => store (g a) (g v)
  | nop => nop

/-- The operation with the list of a phi's sources replaced. -/
def mapSources (g : List (BlockId × Operand) → List (BlockId × Operand)) : Op → Op
  | phi d sources => phi d (g sources)
  | op => op

def isPhi : Op → Bool
  | phi _ _ => true
  | _ => false

/-- Operations that may not be removed even when nothing reads their result: divisions can fault, and an allocation
makes fresh cells. -/
def hasEffect : Op → Bool
  | store _ _ | alloc _ _ | binary .div _ _ _ | binary .rem _ _ _ => true
  | _ => false

/-- Operations that read, write or make cells. -/
def touchesMemory : Op → Bool
  | load _ _ | store _ _ | alloc _ _ => true
  | _ => false

/-- Operations whose result is a function of their operands. -/
def isPure (op : Op) : Bool := !op.touchesMemory && !op.isPhi && !op.hasEffect

/-- The sources of a phi. -/
def sources? : Op → Option (List (BlockId × Operand))
  | phi _ sources => some sources
  | _ => none

end Op

/-- An operation with an optional remark. -/
structure Instr where
  op : Op
  comment : Option String := none
deriving DecidableEq, Inhabited

namespace Instr

def dest? (i : Instr) : Option ValueId := i.op.dest?

def operands (i : Instr) : List Operand := i.op.operands

/-- The values read, in the order of the operands and with repetition. -/
def reads (i : Instr) : List ValueId := valuesOf i.operands

/-- The values read, ascending and each once. -/
def uses (i : Instr) : List ValueId := distinct i.reads

def isPhi (i : Instr) : Bool := i.op.isPhi

def hasEffect (i : Instr) : Bool := i.op.hasEffect

def touchesMemory (i : Instr) : Bool := i.op.touchesMemory

def isPure (i : Instr) : Bool := i.op.isPure

def sources? (i : Instr) : Option (List (BlockId × Operand)) := i.op.sources?

/-- The instruction with reads of one value turned into reads of another. -/
def renameUses (old new : ValueId) (i : Instr) : Instr :=
  { i with op := i.op.mapOperands (Operand.rename old new) }

/-- The instruction with the blocks of a phi's sources replaced. -/
def mapSourceBlocks (g : BlockId → BlockId) (i : Instr) : Instr :=
  { i with op := i.op.mapSources (List.map fun s => (g s.1, s.2)) }

/-- The instruction with one source block of a phi renamed. -/
def renameSource (old new : BlockId) (i : Instr) : Instr :=
  i.mapSourceBlocks fun b => if b = old then new else b

/-- The instruction with only those sources of a phi whose block satisfies a test. -/
def keepSources (keep : BlockId → Bool) (i : Instr) : Instr :=
  { i with op := i.op.mapSources (List.filter fun s => keep s.1) }

end Instr

end SsaFusion
