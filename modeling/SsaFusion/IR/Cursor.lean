import SsaFusion.IR.Func

/-!
# Building functions

A flow cursor stands at a block and closes it, a code cursor adds instructions to a block. A block can be closed only once,
and a phi always goes behind the phis in front of the block. At a block that does not exist nothing is added, but numbers
of values are used up all the same.
-/

namespace SsaFusion

/-- A position while blocks are made and closed. -/
structure FlowCursor where
  func : Func
  block : BlockId
  /-- The block was closed by this cursor since it came here. -/
  closed : Bool := false

/-- The blocks of a loop that is left at its latch. -/
structure LoopBlocks where
  preheader : BlockId
  header : BlockId
  latch : BlockId
  exit : BlockId

namespace FlowCursor

variable (c : FlowCursor)

/-- Makes a block, by default named for its number. -/
def newBlock (name : Option String) : BlockId × FlowCursor :=
  let (b, f) := c.func.addBlock (some (name.getD ("block_" ++ toString c.func.blocks.length)))
  (b, { c with func := f })

/-- Goes to a block. -/
def switchTo (b : BlockId) : FlowCursor := { c with block := b, closed := false }

/-- Whether the block here is closed. -/
def isClosed : Bool := c.closed || (c.func.block? c.block).any Block.isClosed

/-- Closes the block here; gives nothing if it is closed already. -/
def terminate? (t : Terminator) : Option FlowCursor :=
  if c.isClosed then none
  else some { c with func := c.func.modifyBlock c.block fun b => { b with term := t }, closed := true }

/-- Jumps to a block, if the block here is open, and goes there. -/
def jumpTo (b : BlockId) : FlowCursor := ((c.terminate? (.jump b)).getD c).switchTo b

/-- Makes the blocks of a loop. -/
def newLoop : LoopBlocks × FlowCursor :=
  let (preheader, c) := c.newBlock (some "loop_preheader")
  let (header, c) := c.newBlock (some "loop_header")
  let (latch, c) := c.newBlock (some "loop_latch")
  let (exit, c) := c.newBlock (some "loop_exit")
  ({ preheader, header, latch, exit }, c)

end FlowCursor

/-- Why a block could not be closed. -/
def FlowCursor.closedMessage (c : FlowCursor) : String :=
  "Attempting to terminate already terminated block " ++ toString c.block

/-- A position while instructions are added. -/
structure CodeCursor where
  func : Func
  block : BlockId

namespace CodeCursor

variable (c : CodeCursor)

def goTo (b : BlockId) : CodeCursor := { c with block := b }

/-- Adds an instruction to the block here. -/
def add (i : Instr) : CodeCursor :=
  { c with func := c.func.modifyBlock c.block fun b => if i.isPhi then b.pushPhi i else b.push i }

/-- Adds an operation with a fresh destination. -/
def addFresh (op : ValueId → Op) : ValueId × CodeCursor :=
  let (v, f) := c.func.freshValue
  (v, { c with func := f }.add ⟨op v, none⟩)

end CodeCursor

namespace Func

/-- The function with a block changed, if there is such a block. -/
def editBlock? (f : Func) (b : BlockId) (g : Block → Block) : Option Func :=
  if f.hasBlock b then some (f.modifyBlock b g) else none

/-- The function with an instruction changed, if there is such an instruction. -/
def editInstr? (f : Func) (b : BlockId) (index : Nat) (g : Instr → Instr) : Option Func :=
  if (f.instrAt? b index).isSome then
    some (f.modifyBlock b fun blk => { blk with instrs := blk.instrs.modify index g })
  else none

/-- Adds a phi behind the phis of a block; gives nothing for another instruction. -/
def pushPhi? (f : Func) (b : BlockId) (i : Instr) : Option Func :=
  if i.isPhi then some (f.modifyBlock b (·.pushPhi i)) else none

/-- Why an instruction could not be added as a phi. -/
def notPhiMessage : String := "push_phi expects a phi instruction"

end Func

end SsaFusion
