import SsaFusion.Fusion.Adjacency
import SsaFusion.Fusion.Dependence
import SsaFusion.Fusion.Equivalence

/-!
# Legality

Two loops may be fused if they pass five gates, which are tried in a fixed order until one fails.
-/

namespace SsaFusion

/-- The conditions on a pair of loops, in the order in which they are tried. -/
inductive Gate where
  /-- Both loops are guarded or neither is. -/
  | guardParity
  | adjacency
  | tripCount
  | controlFlow
  | dependence
deriving DecidableEq, Inhabited

namespace Gate

def all : List Gate := [guardParity, adjacency, tripCount, controlFlow, dependence]

def text : Gate → String
  | guardParity => "guard parity"
  | adjacency => "adjacency"
  | tripCount => "trip count"
  | controlFlow => "control-flow equivalence"
  | dependence => "dependence"

/-- Whether a pair of loops passes a gate. -/
def passes (s : Snapshot) (l₁ l₂ : Loop) : Gate → Inquiry Bool
  | guardParity => return l₁.isGuarded == l₂.isGuarded
  | adjacency => Inquiry.take (s.isAdjacent l₁ l₂)
  | tripCount => s.sameTripCount l₁ l₂
  | controlFlow => Inquiry.take (s.isEquivalent l₁ l₂)
  | dependence => s.isIndependent l₁ l₂

end Gate

/-- Whether a pair may be fused; if not, the first gate that it failed. -/
inductive Legality where
  | legal
  | illegal (gate : Gate)
deriving DecidableEq, Inhabited

def Legality.isLegal (v : Legality) : Bool := v == .legal

namespace Snapshot

variable (s : Snapshot) (l₁ l₂ : Loop) (pair : Nat)

/-- Tries gates one after another. The number of the pair shows in the records only. -/
def tryGates : List Gate → Inquiry Legality
  | [] => return .legal
  | g :: rest => do
    if ← g.passes s l₁ l₂ then
      Inquiry.note .debug ("Pair " ++ toString pair ++ ": " ++ g.text ++ " passed")
      tryGates rest
    else
      Inquiry.note .debug ("Pair " ++ toString pair ++ ": " ++ g.text ++ " failed")
      return .illegal g

/-- Decides whether a pair of loops may be fused. -/
def legality : Inquiry Legality := do
  Inquiry.note .debug
    ("Pair " ++ toString pair ++ ": loops at " ++ blockText l₁.header ++ " and " ++ blockText l₂.header)
  s.tryGates l₁ l₂ pair Gate.all

end Snapshot

end SsaFusion
