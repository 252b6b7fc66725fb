import SsaFusion.Flow.Search
import SsaFusion.IR.Func

/-!
# The flow graph

Edges lead from a block to the targets of its terminator. A target need not exist; such a place has no way on, and
reachability still counts it.
-/

namespace SsaFusion

namespace Func

/-- The places that control may go to from a block. -/
def successors (f : Func) (b : BlockId) : List BlockId := ((f.term? b).map Terminator.targets).getD []

/-- The blocks that may go to a place, ascending. -/
def predecessors (f : Func) (b : BlockId) : List BlockId :=
  (f.numbered.filter fun p => p.1.term.targets.contains b).map (·.2)

/-- The numbers that name a block or the target of an edge, ascending. -/
def edgeEnds (f : Func) : List BlockId := distinct (f.blockIds ++ f.blocks.flatMap fun b => b.term.targets)

/-- The places where control may be: the entry, the blocks and the targets of edges. -/
def places (f : Func) : List BlockId := if f.edgeEnds.contains f.entry then f.edgeEnds else f.entry :: f.edgeEnds

/-- Every block and every target of an edge with its predecessors. -/
def predecessorMap (f : Func) : List (BlockId × List BlockId) := f.edgeEnds.map fun b => (b, f.predecessors b)

/-- The places that control may get to. -/
def reachable (f : Func) : List BlockId := reach f.successors f.places [f.entry]

def isReachable (f : Func) (b : BlockId) : Bool := f.reachable.contains b

/-- The blocks that control never gets to, ascending. -/
def unreachableBlocks (f : Func) : List BlockId :=
  let live := f.reachable
  f.blockIds.filter (!live.contains ·)

/-- The reachable places in reverse postorder of a depth-first tour from the entry. -/
def reversePostorder (f : Func) : List BlockId :=
  (Tour.visit f.successors (f.places.length + 1) {} f.entry).finished

/-- The reachable blocks that may go to a place, ascending. -/
def livePredecessors (f : Func) (live : List BlockId) (b : BlockId) : List BlockId :=
  (f.predecessors b).filter (live.contains ·)

end Func

end SsaFusion
