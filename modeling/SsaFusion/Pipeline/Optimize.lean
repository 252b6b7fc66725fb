import SsaFusion.Pipeline.Config
import SsaFusion.Program

/-!
# Optimising programs

The stages of a configuration run over every function of a program, between two optional checks of the whole program.
-/

namespace SsaFusion

/-- Why an optimisation failed. -/
inductive OptimizeError where
  | invalidInput (defect : ProgramDefect)
  | invalidOutput (defect : ProgramDefect)
deriving DecidableEq, Inhabited

def OptimizeError.message : OptimizeError → String
  | invalidInput d => "module is invalid before optimization: " ++ d.message
  | invalidOutput d => "optimization produced an invalid module: " ++ d.message

/-- The program after an optimisation, and whether any function changed. -/
structure Optimized where
  program : Program
  result : Except OptimizeError Bool

/-- Names in quotes and brackets. -/
def quotedNames (ss : List String) : String := "[" ++ joined ", " (ss.map fun s => "\"" ++ s ++ "\"") ++ "]"

/-- Runs stages over every function of a list. -/
def Stage.runOver (stages : List Stage) : List Func → Attempt (List Func × Bool)
  | [] => return ([], false)
  | f :: rest => do
    let c ← Stage.runAll f false stages
    let (fs, modified) ← runOver stages rest
    return (c.func :: fs, c.modified || modified)

theorem Stage.result?_runOver_cons (stages : List Stage) (f : Func) (rest : List Func) :
    (runOver stages (f :: rest)).result? =
      (runAll f false stages).result?.bind fun c =>
        (runOver stages rest).result?.map fun r => (c.func :: r.1, c.modified || r.2) := by
  rw [runOver, Attempt.result?_bind]
  congr 1
  funext c
  rw [Attempt.result?_bind, Option.map_eq_bind]
  rfl

namespace Program

/-- The defect of a program, if it is to be checked. -/
def checkedDefect? (p : Program) (c : Config) : Option ProgramDefect := if c.validate then p.defect? else none

/-- The program with what the stages made of its functions, unless there is a defect in it. -/
def finish (p : Program) (c : Config) (funcs : List Func) (modified : Bool) : Optimized :=
  let q := { p with funcs }
  match q.checkedDefect? c with
  | some d => ⟨q, .error (.invalidOutput d)⟩
  | none => ⟨q, .ok modified⟩

/-- Optimises every function of a program. -/
def optimize (p : Program) (c : Config) : Attempt Optimized :=
  match p.checkedDefect? c with
  | some d => return ⟨p, .error (.invalidInput d)⟩
  | none =>
    match c.level.stages? c.fusion with
    | none => return ⟨p, .ok false⟩
    | some stages => do
      Traced.note .debug
        ("Optimizing " ++ toString p.funcs.length ++ " function(s) with "
          ++ quotedNames (stages.map fun s => s.pass.name))
      let (funcs, modified) ← Stage.runOver stages p.funcs
      return p.finish c funcs modified

theorem result?_optimize {p : Program} {c : Config} (h : p.checkedDefect? c = none) {stages : List Stage}
    (hstages : c.level.stages? c.fusion = some stages) :
    (p.optimize c).result? = (Stage.runOver stages p.funcs).result?.map fun r => p.finish c r.1 r.2 := by
  rw [optimize, h, hstages]
  simp only [Attempt.result?_bind]
  rw [Option.map_eq_bind]
  rfl

end Program

end SsaFusion
