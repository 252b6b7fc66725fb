import SsaFusion.Flow.Dominance

/-!
# Natural loops

An edge back to a block that dominates its source closes a loop around that block, the header. The loop holds the header
and every reachable block that reaches such a source without passing the header.

    guard ------------+      may skip the loop
      |               |
    preheader         |      goes to the header only
      |               |
    header <--+       |
     ...      |       |
    latch ----+       |      the only source of a back edge
      |               |
    exit ------> join <      target of the only edge that leaves
-/

namespace SsaFusion

/-- A natural loop with the blocks around it that transformations look for. -/
structure Loop where
  header : BlockId
  /-- Sources of the back edges, ascending. -/
  tails : List BlockId
  /-- All blocks, those of inner loops included, in reverse postorder. -/
  blocks : List BlockId
  /-- The only block outside that goes to the header, if it goes nowhere else. -/
  preheader : Option BlockId := none
  /-- The only edge that leaves the loop. -/
  exitEdge : Option (BlockId × BlockId) := none
  /-- The block that decides between the preheader and a way past the loop. -/
  guard : Option BlockId := none
  /-- The header of the smallest loop around this one. -/
  parent : Option BlockId := none
deriving DecidableEq, Inhabited

namespace Loop

def contains (l : Loop) (b : BlockId) : Bool := l.blocks.contains b

/-- The source of the back edge, if there is exactly one. -/
def latch (l : Loop) : Option BlockId :=
  match l.tails with
  | [t] => some t
  | _ => none

/-- The block that the only leaving edge comes from. -/
def exiting (l : Loop) : Option BlockId := l.exitEdge.map (·.1)

/-- The place that the only leaving edge goes to. -/
def exit (l : Loop) : Option BlockId := l.exitEdge.map (·.2)

def isGuarded (l : Loop) : Bool := l.guard.isSome

/-- The block that stands for entering the loop: its guard if it has one, else its header. -/
def gateway (l : Loop) : BlockId := l.guard.getD l.header

/-- The blocks between header and latch. -/
def inner (l : Loop) : List BlockId := l.blocks.filter fun b => b != l.header && some b != l.latch

def isSingleBlock (l : Loop) : Bool := l.blocks.length == 1

end Loop

section

variable (f : Func) (order : List BlockId)

/-- The sources of back edges to a block. -/
def backSources (dom : DomTree) (h : BlockId) : List BlockId :=
  (f.livePredecessors order h).filter (dom.dominates h ·)

/-- The header and the blocks that reach a source of a back edge without passing it, in reverse postorder. -/
def loopBlocks (h : BlockId) (tails : List BlockId) : List BlockId :=
  let inside := reach (f.livePredecessors order) (order.filter (· != h)) tails
  order.filter fun b => b == h || inside.contains b

/-- The preheader of a loop. -/
def preheaderOf (h : BlockId) (blocks : List BlockId) : Option BlockId :=
  match (f.livePredecessors order h).filter (!blocks.contains ·) with
  | [p] => if f.successors p = [h] then some p else none
  | _ => none

/-- The edges that leave a set of blocks. -/
def leavingEdges (blocks : List BlockId) : List (BlockId × BlockId) :=
  blocks.flatMap fun b => ((f.successors b).filter (!blocks.contains ·)).map (b, ·)

/-- The only edge that leaves a set of blocks. -/
def exitEdgeOf (blocks : List BlockId) : Option (BlockId × BlockId) :=
  match leavingEdges f blocks with
  | [e] => some e
  | _ => none

/-- The guard of a loop with the given preheader and exit: it either enters the preheader or goes to the exit, or to
the only place that the exit leads to. -/
def guardOf (preheader exit : BlockId) : Option BlockId :=
  match f.livePredecessors order preheader with
  | [g] =>
    match (f.term? g).bind (Terminator.other? preheader) with
    | some skip =>
      if skip != preheader && (skip == exit || f.successors exit == [skip]) then some g else none
    | none => none
  | _ => none

/-- The loop around a header with the given sources of back edges. -/
def loopAround (h : BlockId) (tails : List BlockId) : Loop :=
  let blocks := loopBlocks f order h tails
  let preheader := preheaderOf f order h blocks
  let exitEdge := exitEdgeOf f blocks
  let guard := do guardOf f order (← preheader) (← exitEdge).2
  { header := h, tails, blocks, preheader, exitEdge, guard }

/-- The natural loops, in reverse postorder of their headers. -/
def naturalLoops (dom : DomTree) : List Loop :=
  order.filterMap fun h =>
    match backSources f order dom h with
    | [] => none
    | tails => some (loopAround f order h tails)

end

end SsaFusion
