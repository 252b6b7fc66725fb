import SsaFusion.IR.Block

/-!
# Functions

A function is a list of blocks, numbered by position, with an entry block and parameters. Every value has at most one
site where it is defined; if several instructions claim it, the parameter or the first instruction counts.
-/

namespace SsaFusion

/-- A function as a graph of blocks. -/
structure Func where
  name : String
  blocks : List Block
  entry : BlockId := 0
  params : List ValueId := []
  /-- The number of the next fresh value. -/
  nextValue : Nat := 0
deriving DecidableEq, Inhabited

/-- Where a value comes from. -/
inductive Site where
  /-- A parameter, available everywhere. -/
  | param
  /-- The instruction at a position of a block. -/
  | instr (block : BlockId) (index : Nat)
deriving DecidableEq, Inhabited

/-- The defining block; parameters have none. -/
def Site.block? : Site → Option BlockId
  | param => none
  | instr b _ => some b

namespace Func

/-- A function with one open block. -/
def new (name : String) : Func := { name, blocks := [{ name := some "entry" }] }

def block? (f : Func) (b : BlockId) : Option Block := f.blocks[b]?

def hasBlock (f : Func) (b : BlockId) : Bool := decide (b < f.blocks.length)

/-- The numbers of the blocks. -/
def blockIds (f : Func) : List BlockId := List.range f.blocks.length

/-- The blocks with their numbers. -/
def numbered (f : Func) : List (Block × BlockId) := f.blocks.zipIdx

/-- The instructions of a block, none if there is no such block. -/
def instrsOf (f : Func) (b : BlockId) : List Instr := ((f.block? b).map Block.instrs).getD []

/-- The phis that open a block. -/
def phisAt (f : Func) (b : BlockId) : List Instr := ((f.block? b).map Block.phis).getD []

/-- The instructions of a block behind its opening phis. -/
def bodyAt (f : Func) (b : BlockId) : List Instr := ((f.block? b).map Block.body).getD []

/-- The terminator of a block. -/
def term? (f : Func) (b : BlockId) : Option Terminator := (f.block? b).map Block.term

/-- The function with one block replaced. -/
def modifyBlock (f : Func) (b : BlockId) (g : Block → Block) : Func := { f with blocks := f.blocks.modify b g }

/-- The function with every block replaced. -/
def mapBlocks (f : Func) (g : Block → Block) : Func := { f with blocks := f.blocks.map g }

/-- Adds an open block and gives its number. -/
def addBlock (f : Func) (name : Option String) : BlockId × Func :=
  (f.blocks.length, { f with blocks := f.blocks ++ [{ name }] })

/-- Takes a fresh value number. -/
def freshValue (f : Func) : ValueId × Func := (f.nextValue, { f with nextValue := f.nextValue + 1 })

/-- Adds a parameter with a fresh number. -/
def addParam (f : Func) : ValueId × Func :=
  (f.nextValue, { f with nextValue := f.nextValue + 1, params := f.params ++ [f.nextValue] })

/-- All instructions in order. -/
def instrs (f : Func) : List Instr := f.blocks.flatMap Block.instrs

/-- The values that instructions define, in order and with repetition. -/
def dests (f : Func) : List ValueId := f.instrs.filterMap Instr.dest?

/-- The values defined by parameters and instructions, in order and with repetition. -/
def defined (f : Func) : List ValueId := f.params ++ f.dests

/-- The position of the first instruction that defines a value. -/
def instrSite? (f : Func) (v : ValueId) : Option Site :=
  f.numbered.findSome? fun (b, n) => (b.instrs.findIdx? fun i => i.dest? == some v).map (Site.instr n)

/-- Where a value is defined. -/
def site? (f : Func) (v : ValueId) : Option Site :=
  if f.params.contains v then some .param else f.instrSite? v

/-- The block in which an instruction defines a value. -/
def definingBlock? (f : Func) (v : ValueId) : Option BlockId := (f.site? v).bind Site.block?

/-- The instruction at a position. -/
def instrAt? (f : Func) (b : BlockId) (index : Nat) : Option Instr := (f.instrsOf b)[index]?

/-- The instruction that defines a value, with its position. -/
def definition? (f : Func) (v : ValueId) : Option (BlockId × Nat × Instr) :=
  match f.site? v with
  | some (.instr b n) => (f.instrAt? b n).map fun i => (b, n, i)
  | _ => none

/-- What the instruction that defines a value does. -/
def definingOp? (f : Func) (v : ValueId) : Option Op := (f.definition? v).map (·.2.2.op)

/-- The values that are read, in order and with repetition; a terminator reads each of its values once. -/
def reads (f : Func) : List ValueId := f.blocks.flatMap fun b => b.instrs.flatMap Instr.reads ++ b.term.uses

/-- How often a value is read. -/
def useCount (f : Func) (v : ValueId) : Nat := f.reads.count v

/-- The values that are read somewhere, ascending. -/
def usedValues (f : Func) : List ValueId := distinct f.reads

/-- The function with reads of one value turned into reads of another. -/
def renameUses (f : Func) (old new : ValueId) : Func :=
  f.mapBlocks fun b => (b.mapInstrs (Instr.renameUses old new)).mapTerm (Terminator.renameUses old new)

end Func

end SsaFusion
