/-!
# Searching a finite graph

A graph is given by the list of nodes after each node. `reach next within starts` lists the nodes of a finite universe
that some start reaches by steps that stay inside the universe. Restricting the universe therefore searches for paths
that avoid nodes, which is how loop bodies are found.
-/

namespace SsaFusion

/-- Collects from the nodes not found yet those that a frontier leads to, round by round. Every round but the last
finds a node, so as many rounds as there are nodes are enough. -/
def spread (next : Nat → List Nat) : (rounds : Nat) → (left frontier : List Nat) → List Nat
  | 0, _, _ => []
  | k + 1, left, frontier =>
    let ahead := frontier.flatMap next
    let found := left.filter (ahead.contains ·)
    if found.isEmpty then [] else found ++ spread next k (left.filter (!ahead.contains ·)) found

/-- The nodes of a universe that a start reaches by steps inside the universe, the starts in it included. -/
def reach (next : Nat → List Nat) (within starts : List Nat) : List Nat :=
  let first := within.filter (starts.contains ·)
  first ++ spread next within.length (within.filter (!starts.contains ·)) first

/-! ## Depth-first tours -/

/-- What a depth-first tour knows: the nodes met so far and, last finished first, the nodes done. -/
structure Tour (ν : Type) where
  seen : List ν := []
  finished : List ν := []

/-- Visits a node and then, in order, what lies behind it. The first argument bounds the depth; a tour never goes deeper
than there are nodes. -/
def Tour.visit {ν : Type} [DecidableEq ν] (next : ν → List ν) : (depth : Nat) → Tour ν → ν → Tour ν
  | 0, t, _ => t
  | k + 1, t, v =>
    if t.seen.contains v then t
    else
      let t := (next v).foldl (Tour.visit next k) { t with seen := v :: t.seen }
      { t with finished := v :: t.finished }

end SsaFusion
