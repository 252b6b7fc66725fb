import SsaFusion.Fusion.Splice

/-!
# Fusing all loops

The neighbours among sibling loops are tried in order, deepest siblings first, and the first pair that can be fused is.
Then everything that was known is stale, and the search starts again on the new function, until no pair can be fused or
enough are.
-/

namespace SsaFusion

/-- What may be fused. -/
structure FusionConfig where
  fuseGuarded : Bool := true
  maxFusions : Option Nat := none
  /-- Keep a fused function only if it is valid. -/
  verify : Bool := true
deriving DecidableEq, Inhabited

/-- Each element of a list with the next. -/
def neighbours {α : Type} (as : List α) : List (α × α) := as.zip as.tail

namespace Snapshot

variable (s : Snapshot) (config : FusionConfig)

/-- The pairs that are tried, in order. -/
def candidates : List (Loop × Loop) := s.nest.siblingGroups.flatMap neighbours

/-- Tries to fuse one pair, which has a number in the records. -/
def tryPair (first second : Loop) (pair : Nat) : Inquiry (Option Func) := do
  let title := "Pair " ++ toString pair ++ ": "
  if !config.fuseGuarded && (first.isGuarded || second.isGuarded) then
    Inquiry.note .debug (title ++ "guarded loops are not fused by configuration")
    return none
  else
    let legality ← s.legality first second pair
    if legality.isLegal then
      match ← s.fuse first second legality config.verify with
      | .ok fused =>
        Inquiry.note .debug
          (title ++ "fused loop at " ++ blockText second.header ++ " into loop at " ++ blockText first.header
            ++ " in '" ++ s.func.name ++ "'")
        return some fused
      | .error e =>
        Inquiry.note .warn (title ++ "legal pair not fused: " ++ e.message)
        return none
    else return none

/-- The result of the first pair that can be fused, and the number of the last pair tried. -/
def fuseFirst : List (Loop × Loop) → (tried : Nat) → Inquiry (Option Func × Nat)
  | [], tried => return (none, tried)
  | (l₁, l₂) :: rest, tried => do
    match ← s.tryPair config l₁ l₂ (tried + 1) with
    | some fused => return (some fused, tried + 1)
    | none => fuseFirst rest (tried + 1)

end Snapshot

namespace Func

/-- Searches and fuses again and again, for at most the given number of rounds; gives the function and the number of
fusions. Every fusion removes blocks, so there are fewer rounds than blocks. -/
def fuseRounds (config : FusionConfig) : (rounds : Nat) → Func → (fusions tried : Nat) → Attempt (Func × Nat)
  | 0, _, _, _ => failure
  | k + 1, f, fusions, tried =>
    if config.maxFusions.all (fun most => decide (fusions < most)) then do
      let s := Snapshot.of f
      let ((fused?, tried), _) ← (s.fuseFirst config s.candidates tried).run {}
      match fused? with
      | some fused => fuseRounds config k fused (fusions + 1) tried
      | none => return (f, fusions)
    else return (f, fusions)

/-- Fuses as many pairs of loops as the configuration allows. -/
def fuseLoops (f : Func) (config : FusionConfig) : Attempt Change := do
  let (g, fusions) ← fuseRounds config (f.blocks.length + 1) f 0 0
  if 0 < fusions then
    Traced.note .debug ("Fused " ++ toString fusions ++ " loop pair(s) in '" ++ g.name ++ "'")
  return { func := g, modified := decide (0 < fusions) }

end Func

end SsaFusion
