import SsaFusion.IR.Instr

/-!
# Blocks

A block is a straight line of instructions, phis first, closed by one terminator. The edges of the flow graph are the
targets of terminators and are stored nowhere else.
-/

namespace SsaFusion

/-- How a block ends. -/
inductive Terminator where
  | jump (target : BlockId)
  | branch (cond : Operand) (onTrue onFalse : BlockId)
  | ret (values : List Operand)
  /-- Control never gets here; also the placeholder of a block under construction. -/
  | unreachable
deriving DecidableEq, Inhabited

namespace Terminator

/-- The blocks that control may go to, each once. -/
def targets : Terminator → List BlockId
  | jump t => [t]
  | branch _ t e => if t = e then [t] else [t, e]
  | ret _ | unreachable => []

def operands : Terminator → List Operand
  | branch c _ _ => [c]
  | ret vs => vs
  | jump _ | unreachable => []

/-- The values read, ascending and each once. -/
def uses (t : Terminator) : List ValueId := distinct (valuesOf t.operands)

/-- Terminators that leave the function. -/
def isExit : Terminator → Bool
  | ret _ | unreachable => true
  | _ => false

/-- The terminator with every target replaced. -/
def mapTargets (g : BlockId → BlockId) : Terminator → Terminator
  | jump t => jump (g t)
  | branch c t e => branch c (g t) (g e)
  | ret vs => ret vs
  | unreachable => unreachable

/-- The terminator with one target replaced by another. -/
def retarget (old new : BlockId) (t : Terminator) : Terminator := t.mapTargets fun b => if b = old then new else b

/-- The terminator with every operand replaced. -/
def mapOperands (g : Operand → Operand) : Terminator → Terminator
  | jump t => jump t
  | branch c t e => branch (g c) t e
  | ret vs => ret (vs.map g)
  | unreachable => unreachable

/-- The terminator with reads of one value turned into reads of another. -/
def renameUses (old new : ValueId) (t : Terminator) : Terminator := t.mapOperands (Operand.rename old new)

/-- The target of a two-way branch that is not the given one. -/
def other? (b : BlockId) : Terminator → Option BlockId
  | branch _ t e => if t = b then some e else if e = b then some t else none
  | _ => none

end Terminator

/-- A block: an optional name, its instructions and its terminator. -/
structure Block where
  name : Option String := none
  instrs : List Instr := []
  term : Terminator := .unreachable
deriving DecidableEq, Inhabited

namespace Block

/-- The phis that open the block. -/
def phis (b : Block) : List Instr := b.instrs.takeWhile Instr.isPhi

/-- The instructions after the opening phis. -/
def body (b : Block) : List Instr := b.instrs.dropWhile Instr.isPhi

def phiCount (b : Block) : Nat := b.phis.length

/-- A block is closed once it has a terminator other than the placeholder. -/
def isClosed (b : Block) : Bool := b.term != .unreachable

/-- The block with an instruction added at the end. -/
def push (b : Block) (i : Instr) : Block := { b with instrs := b.instrs ++ [i] }

/-- The block with an instruction added behind the opening phis. -/
def pushPhi (b : Block) (i : Instr) : Block := { b with instrs := b.phis ++ i :: b.body }

def append (b : Block) (is : List Instr) : Block := { b with instrs := b.instrs ++ is }

def prepend (b : Block) (is : List Instr) : Block := { b with instrs := is ++ b.instrs }

/-- The block without its opening phis. -/
def dropPhis (b : Block) : Block := { b with instrs := b.body }

/-- The block with nothing but its opening phis. -/
def dropBody (b : Block) : Block := { b with instrs := b.phis }

/-- The block with every instruction replaced. -/
def mapInstrs (g : Instr → Instr) (b : Block) : Block := { b with instrs := b.instrs.map g }

/-- The block with its terminator replaced. -/
def mapTerm (g : Terminator → Terminator) (b : Block) : Block := { b with term := g b.term }

/-- Whether an instruction or the terminator reads a value. -/
def reads (b : Block) (v : ValueId) : Bool := b.instrs.any (fun i => i.uses.contains v) || b.term.uses.contains v

/-- The instructions and the terminator split at the opening phis are the whole block. -/
theorem phis_append_body (b : Block) : b.phis ++ b.body = b.instrs := List.takeWhile_append_dropWhile

end Block

end SsaFusion
