import SsaFusion.Data.Sorting
import SsaFusion.Flow.Loop

/-!
# The loop nest

Loops are disjoint or nested, so they form a forest. The order of discovery walks it inner loops first, with siblings in
reverse program order; `siblingGroups` lists the candidates for fusion, deepest first.
-/

namespace SsaFusion

/-- The loops of a function, in reverse postorder of their headers, each with the header of its parent. -/
structure LoopNest where
  loops : List Loop
deriving DecidableEq, Inhabited

/-- The first loop of a list with the fewest blocks. -/
def smallestLoop : List Loop → Option Loop
  | [] => none
  | l :: rest =>
    match smallestLoop rest with
    | none => some l
    | some m => if l.blocks.length ≤ m.blocks.length then some l else some m

/-- The smallest other loop that holds the header of a loop. -/
def enclosingLoop (ls : List Loop) (l : Loop) : Option Loop :=
  smallestLoop (ls.filter fun o => o.header != l.header && o.contains l.header)

/-- The nest of a function with the given dominance. -/
def Func.loopNest (f : Func) (dom : DomTree) : LoopNest :=
  let loops := naturalLoops f f.reversePostorder dom
  ⟨loops.map fun l => { l with parent := (enclosingLoop loops l).map Loop.header }⟩

namespace LoopNest

variable (n : LoopNest)

/-- The loop with a header. -/
def find? (h : BlockId) : Option Loop := n.loops.find? (·.header == h)

/-- The number of a loop. -/
def idOf (l : Loop) : Nat := n.loops.findIdx (·.header == l.header)

/-- The loops directly inside a loop, in program order. -/
def children (l : Loop) : List Loop := n.loops.filter (·.parent == some l.header)

/-- The loops inside no other, in program order. -/
def topLevel : List Loop := n.loops.filter (·.parent.isNone)

/-- Puts a loop one deeper than its parent, which has depth one as long as nothing else is known. -/
def deepen (depths : Table BlockId Nat) (l : Loop) : Table BlockId Nat :=
  match l.parent with
  | some p => depths.insert l.header ((depths.get? p).getD 1 + 1)
  | none => depths

/-- The nesting depths by headers, found in one pass: parents have smaller numbers than the loops inside them. -/
def depths : Table BlockId Nat := n.loops.foldl deepen .empty

/-- The nesting depth; loops inside no other have depth one. -/
def depth (l : Loop) : Nat := (n.depths.get? l.header).getD 1

/-- A loop after all loops inside it, siblings backwards, where the first argument bounds the depth. -/
def postorderWithin : Nat → Loop → List Loop
  | 0, l => [l]
  | k + 1, l => (n.children l).reverse.flatMap (postorderWithin k) ++ [l]

/-- All loops in the order of discovery. -/
def discovery : List Loop := n.topLevel.reverse.flatMap (n.postorderWithin n.loops.length)

/-- The innermost loop that holds a block: inner loops have later headers. -/
def loopOf (b : BlockId) : Option Loop := (n.loops.filter (·.contains b)).getLast?

/-- The sets of at least two loops with one parent, each in program order, deeper sets first. -/
def siblingGroups : List (List Loop) :=
  let inner := (n.discovery.filter fun l => 2 ≤ (n.children l).length).map fun l => (n.depth l + 1, n.children l)
  let outer := if 2 ≤ n.topLevel.length then [(1, n.topLevel)] else []
  (sortBy (fun a b => decide (b.1 ≤ a.1)) (inner ++ outer)).map (·.2)

end LoopNest

/-- Whether a function has at least two loops, the least that fusion needs. -/
def Func.hasLoopPair (f : Func) : Bool := decide (2 ≤ (f.loopNest f.dominators).loops.length)

end SsaFusion
