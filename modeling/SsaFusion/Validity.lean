import SsaFusion.Flow.Dominance

/-!
# Validity of functions

A function is valid if its entry and all targets exist, phis open their blocks, every value is defined once, every phi
of a reachable block has exactly one source for each reachable predecessor and none for other blocks, and every read in
a reachable block is dominated by the definition. `defect?` gives the first violation in a fixed order.
-/

namespace SsaFusion

/-- What can be wrong with a function. -/
inductive Defect where
  | missingEntry (entry : BlockId)
  | danglingTarget (block target : BlockId)
  | misplacedPhi (block : BlockId) (position : Nat)
  | phiFromNonPredecessor (block : BlockId) (phi : ValueId) (source : BlockId)
  | phiPredecessorMismatch (block : BlockId) (phi : ValueId) (pred : BlockId) (count : Nat)
  | duplicateDefinition (value : ValueId)
  | undefinedValue (block : BlockId) (value : ValueId)
  | useNotDominated (block : BlockId) (value : ValueId)
deriving DecidableEq, Inhabited

def Defect.message : Defect → String
  | missingEntry b => "entry block " ++ toString b ++ " does not exist"
  | danglingTarget b t => "block " ++ toString b ++ " targets non-existent block " ++ toString t
  | misplacedPhi b p => "block " ++ toString b ++ ": phi at position " ++ toString p ++ " follows a non-phi instruction"
  | phiFromNonPredecessor b v s =>
    "block " ++ toString b ++ ": phi " ++ toString v ++ " has an operand from " ++ toString s
      ++ ", which is not a predecessor"
  | phiPredecessorMismatch b v p c =>
    "block " ++ toString b ++ ": phi " ++ toString v ++ " has " ++ toString c ++ " operands for predecessor "
      ++ toString p
  | duplicateDefinition v => "value " ++ toString v ++ " is defined more than once"
  | undefinedValue b v => "block " ++ toString b ++ " uses value " ++ toString v ++ " that is never defined"
  | useNotDominated b v =>
    "block " ++ toString b ++ " uses value " ++ toString v ++ " before its definition dominates it"

/-- The first element that occurs earlier or in a list of elements seen before. -/
def firstRepeat {α : Type} [DecidableEq α] (seen : List α) : List α → Option α
  | [] => none
  | a :: rest => if seen.contains a then some a else firstRepeat (a :: seen) rest

namespace Func

section Layout

variable (f : Func)

/-- The first target of a block that does not exist. -/
def danglingTarget? (b : BlockId) (blk : Block) : Option Defect :=
  (blk.term.targets.find? (!f.hasBlock ·)).map (.danglingTarget b)

/-- The first phi of a block behind another instruction. -/
def misplacedPhi? (b : BlockId) (blk : Block) : Option Defect :=
  (blk.body.findIdx? Instr.isPhi).map fun i => .misplacedPhi b (blk.phiCount + i)

/-- The first defect of the blocks' layout. -/
def layoutDefect? : Option Defect :=
  f.numbered.findSome? fun (blk, b) => danglingTarget? f b blk <|> misplacedPhi? b blk

end Layout

section Reads

variable (f : Func) (dom : DomTree)

/-- The defect of reading a value in a block in front of a position, or at the end of the block without a position. -/
def readDefect? (b : BlockId) (position : Option Nat) (v : ValueId) : Option Defect :=
  match f.site? v with
  | none => some (.undefinedValue b v)
  | some .param => none
  | some (.instr d i) =>
    let ok := if d = b then position.all (fun p => decide (i < p)) else dom.dominates d b
    if ok then none else some (.useNotDominated b v)

/-- The first defect of a phi of a reachable block. -/
def phiDefect? (live : List BlockId) (b : BlockId) (phi : ValueId) (sources : List (BlockId × Operand)) :
    Option Defect :=
  let preds := f.predecessors b
  (sources.findSome? fun s => if preds.contains s.1 then none else some (.phiFromNonPredecessor b phi s.1))
  <|> ((preds.filter (live.contains ·)).findSome? fun p =>
    let count := sources.countP (·.1 == p)
    if count = 1 then none else some (.phiPredecessorMismatch b phi p count))
  <|> ((sources.filter fun s => live.contains s.1).findSome? fun s =>
    s.2.var?.bind (readDefect? f dom s.1 none))

/-- The first defect of an instruction at a position of a reachable block. -/
def instrDefect? (live : List BlockId) (b : BlockId) (index : Nat) (i : Instr) : Option Defect :=
  match i.op with
  | .phi d sources => phiDefect? f dom live b d sources
  | _ => i.reads.findSome? (readDefect? f dom b (some index))

/-- The first defect of what a reachable block reads. -/
def blockDefect? (live : List BlockId) (b : BlockId) (blk : Block) : Option Defect :=
  (blk.instrs.zipIdx.findSome? fun (i, n) => instrDefect? f dom live b n i)
  <|> (blk.term.uses.findSome? (readDefect? f dom b (some blk.instrs.length)))

/-- The first defect of what reachable blocks read. -/
def readsDefect? : Option Defect :=
  let live := f.reachable
  (f.numbered.filter fun p => live.contains p.2).findSome? fun (blk, b) => blockDefect? f dom live b blk

end Reads

/-- The first defect of a function. -/
def defect? (f : Func) : Option Defect :=
  (if f.hasBlock f.entry then none else some (.missingEntry f.entry))
  <|> f.layoutDefect?
  <|> ((firstRepeat [] f.defined).map .duplicateDefinition)
  <|> f.readsDefect? f.dominators

/-- A function without defects. -/
def isValid (f : Func) : Bool := f.defect?.isNone

end Func

end SsaFusion
