import SsaFusion.Data.Table
import SsaFusion.Flow.Graph

/-!
# Dominance

A node dominates another if every path from the root to the other passes through it. Immediate dominators are found by
sweeps over the nodes in reverse postorder. A sweep gives each node the closest common ancestor, in the tree found so
far, of those predecessors that are in the tree, and sweeps are made until one changes nothing. Post-dominance is the
same on the reversed flow graph, rooted at a virtual exit that all blocks leaving the function flow into.

Sweeps and climbs carry a bound, and running out of it is no answer. The bounds are never met.
-/

namespace SsaFusion

/-! ## Immediate dominators -/

section Immediate

variable {ν : Type} [DecidableEq ν] (order : List ν) (preds : ν → List ν)

/-- Goes up from a node as long as it is listed after a place. -/
def climb (idom : Table ν ν) (place : Nat) : (steps : Nat) → ν → Option ν
  | 0, _ => none
  | k + 1, x => if place < order.idxOf x then (idom.get? x).bind (climb idom place k) else some x

/-- The closest common ancestor of two nodes: whichever is listed later goes up, in turns, until they meet. -/
def intersect (idom : Table ν ν) : (turns : Nat) → ν → ν → Option ν
  | 0, _, _ => none
  | k + 1, a, b =>
    if a = b then some a
    else do
      let a ← climb order idom (order.idxOf b) order.length a
      let b ← climb order idom (order.idxOf a) order.length b
      intersect idom k a b

/-- The tree found so far, and whether the sweep under way has changed it. -/
structure DomSweep (ν : Type) where
  idom : Table ν ν
  changed : Bool := false

/-- Gives a node the closest common ancestor of its predecessors in the tree. -/
def DomSweep.visit (s : DomSweep ν) (x : ν) : Option (DomSweep ν) :=
  match (preds x).filter fun p => (s.idom.get? p).isSome with
  | [] => some s
  | first :: rest => do
    let new ← rest.foldlM (fun new p => intersect order s.idom order.length p new) first
    if s.idom.get? x = some new then some s else some ⟨s.idom.insert x new, true⟩

/-- Sweeps over all nodes but the root until nothing changes. -/
def settle : (sweeps : Nat) → Table ν ν → Option (Table ν ν)
  | 0, _ => none
  | k + 1, idom => do
    let s ← order.tail.foldlM (DomSweep.visit order preds) { idom }
    if s.changed then settle k s.idom else some s.idom

/-- The immediate dominators of the nodes in an order, with the root, which comes first, bound to itself. -/
def immediateDominators : Option (Table ν ν) :=
  match order with
  | [] => some .empty
  | root :: _ => settle order preds (order.length * order.length + 1) (Table.empty.insert root root)

end Immediate

/-! ## Trees of blocks -/

/-- A node of a graph under analysis: a place of the function or the virtual exit. -/
inductive FlowNode where
  | block (b : BlockId)
  | exit
deriving DecidableEq, Inhabited

/-- Steps between blocks, and from the virtual exit to the blocks that it is joined to. -/
def FlowNode.steps (joined : List BlockId) (next : BlockId → List BlockId) : FlowNode → List FlowNode
  | .block b => (next b).map .block
  | .exit => joined.map .block

/-- Blocks with their immediate dominators. A root, and a block below the virtual exit, has none. -/
structure DomTree where
  nodes : List BlockId := []
  idom : Table BlockId BlockId := .empty
deriving DecidableEq, Inhabited

namespace DomTree

/-- The block of a binding. -/
def node? : FlowNode × FlowNode → Option BlockId
  | (.block b, _) => some b
  | (.exit, _) => none

/-- The edge of a binding that leads from a block to another. -/
def edge? : FlowNode × FlowNode → Option (BlockId × BlockId)
  | (.block b, .block p) => if p = b then none else some (b, p)
  | _ => none

/-- Drops the virtual exit, the edges into it and the loop at the root. -/
def ofIdoms (idom : Table FlowNode FlowNode) : DomTree :=
  ⟨idom.entries.filterMap node?, ⟨idom.entries.filterMap edge?⟩⟩

def contains (t : DomTree) (b : BlockId) : Bool := t.nodes.contains b

/-- The immediate dominator of a block. -/
def parent? (t : DomTree) (b : BlockId) : Option BlockId := t.idom.get? b

/-- Whether a block is met on the way up from another, which is no longer than there are blocks. -/
def isAbove (t : DomTree) (a : BlockId) : (steps : Nat) → BlockId → Bool
  | 0, _ => false
  | k + 1, b =>
    match t.parent? b with
    | some p => p == a || isAbove t a k p
    | none => false

/-- Whether a block dominates another. Every block dominates itself, in the tree or not. -/
def dominates (t : DomTree) (a b : BlockId) : Bool :=
  a == b || t.contains a && t.contains b && t.isAbove a t.nodes.length b

def strictlyDominates (t : DomTree) (a b : BlockId) : Bool := a != b && t.dominates a b

end DomTree

namespace Func

variable (f : Func)

/-- The predecessors of a node on the way from the entry. -/
def entryPreds : FlowNode → List FlowNode
  | .block b => (f.predecessors b).map .block
  | .exit => []

/-- The immediate dominators on the way from the entry. -/
def entryIdoms : Option (Table FlowNode FlowNode) :=
  immediateDominators (f.reversePostorder.map .block) f.entryPreds

/-- Dominance from the entry. -/
def dominators : DomTree := .ofIdoms (f.entryIdoms.getD .empty)

/-- The reachable blocks that leave the function, ascending. -/
def exits : List BlockId :=
  let live := f.reachable
  (f.numbered.filter fun p => live.contains p.2 && p.1.term.isExit).map (·.2)

/-- The steps against the edges, from the virtual exit on. -/
def exitSteps (live : List BlockId) : FlowNode → List FlowNode := FlowNode.steps f.exits (f.livePredecessors live)

/-- The virtual exit and the reachable blocks that reach an exit, in reverse postorder of a tour against the edges. -/
def exitOrder : List FlowNode :=
  let live := f.reachable
  (Tour.visit (f.exitSteps live) (live.length + 2) {} .exit).finished

/-- The predecessors of a node on the way from the virtual exit. -/
def exitPreds : FlowNode → List FlowNode
  | .block b => (f.successors b).map .block ++ if (f.term? b).any Terminator.isExit then [.exit] else []
  | .exit => []

/-- The immediate dominators on the way from the virtual exit. -/
def exitIdoms : Option (Table FlowNode FlowNode) := immediateDominators f.exitOrder f.exitPreds

/-- Dominance towards the exits. Blocks that reach no exit are not in the tree. -/
def postDominators : DomTree := .ofIdoms (f.exitIdoms.getD .empty)

end Func

end SsaFusion
