import SsaFusion.Fusion.Rounds

/-!
# Passes

A pass transforms a function and reports whether it changed it. Passes run in sequence, some of them only on functions
that satisfy a condition.
-/

namespace SsaFusion

/-- The passes. -/
inductive Pass where
  | fusion (config : FusionConfig)
  | deadCode
  /-- Reports what is wrong with a function and changes nothing. -/
  | validation
deriving DecidableEq, Inhabited

namespace Pass

def name : Pass → String
  | fusion _ => "LoopFusion"
  | deadCode => "DeadCodeElimination"
  | validation => "Validation"

/-- The records that a validation writes. -/
def validationReport (f : Func) : List Record :=
  match f.defect? with
  | some d => [⟨.error, "MIR validation failed for function '" ++ f.name ++ "': " ++ d.message⟩]
  | none =>
    let dead := f.unreachableBlocks
    let preds := f.predecessors f.entry
    (if dead.isEmpty then []
      else [⟨.warn, "Function '" ++ f.name ++ "' contains " ++ toString dead.length ++ " unreachable blocks: "
        ++ bracketed dead⟩])
    ++ (if preds.isEmpty then []
      else [⟨.debug, "Entry block of '" ++ f.name ++ "' has predecessors: " ++ bracketed preds⟩])

def run (f : Func) : Pass → Attempt Change
  | fusion config => f.fuseLoops config
  | deadCode => OptionT.lift f.sweepTraced
  | validation => OptionT.lift ⟨⟨f, false⟩, validationReport f⟩

end Pass

/-- A pass, or a pass for functions that satisfy a condition. -/
structure Stage where
  pass : Pass
  condition : Option (Func → Bool) := none

namespace Stage

def run (f : Func) (s : Stage) : Attempt Change :=
  if s.condition.all (· f) then s.pass.run f
  else do
    Traced.note .trace ("Skipping pass '" ++ s.pass.name ++ "' for '" ++ f.name ++ "'")
    return ⟨f, false⟩

/-- Runs stages one after another. -/
def runAll (f : Func) (modified : Bool) : List Stage → Attempt Change
  | [] => return ⟨f, modified⟩
  | s :: rest => do
    let c ← s.run f
    if c.modified then
      Traced.note .debug ("Pass '" ++ s.pass.name ++ "' modified function '" ++ c.func.name ++ "'")
    runAll c.func (modified || c.modified) rest

theorem result?_runAll_cons (f : Func) (modified : Bool) (s : Stage) (rest : List Stage) :
    (runAll f modified (s :: rest)).result? =
      (s.run f).result?.bind fun c => (runAll c.func (modified || c.modified) rest).result? := by
  rw [runAll, Attempt.result?_bind]
  congr 1
  funext c
  dsimp only
  split <;> rfl

/-- Cleaning up only. -/
def basic : List Stage := [⟨.deadCode, none⟩, ⟨.validation, none⟩]

/-- Fusion of functions with at least two loops, then cleaning up. -/
def standard (config : FusionConfig) : List Stage := ⟨.fusion config, some Func.hasLoopPair⟩ :: basic

end Stage

end SsaFusion
