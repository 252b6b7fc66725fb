import SsaFusion.Data.Numeral
import SsaFusion.Pipeline.Pass

/-!
# Configuration

How much is done to a program, with presets and settings from the environment. Settings that cannot be read are ignored
with a warning.
-/

namespace SsaFusion

/-- How much is done. -/
inductive OptLevel where
  | none
  /-- Cleaning up only. -/
  | basic
  /-- Fusion and cleaning up. -/
  | standard
deriving DecidableEq, Inhabited

namespace OptLevel

/-- The level of a number from 0 to 255 in text; numbers above 2 count as 2. -/
def ofText? (s : String) : Option OptLevel :=
  (numberBelow? 256 s).map fun n => if n = 0 then none else if n = 1 then basic else standard

/-- The stages of a level, if any. -/
def stages? (config : FusionConfig) : OptLevel → Option (List Stage)
  | none => .none
  | basic => some Stage.basic
  | standard => some (Stage.standard config)

end OptLevel

/-- The configuration of an optimisation. -/
structure Config where
  level : OptLevel := .standard
  fusion : FusionConfig := {}
  /-- Check the program before and after. -/
  validate : Bool := false
deriving DecidableEq, Inhabited

namespace Config

/-- Nothing is done. -/
def noOpt : Config := { level := .none }

/-- Everything is done, with checks. -/
def checked : Config := { validate := true }

/-- The configuration with a setting of the level. -/
def readLevel (c : Config) (s : String) : Traced Config :=
  match OptLevel.ofText? s with
  | some level => return { c with level }
  | none => do
    Traced.note .warn ("Ignoring LOOPWEAVE_OPT_LEVEL=" ++ s)
    return c

/-- The configuration with a setting of the greatest number of fusions. -/
def readMaxFusions (c : Config) (s : String) : Traced Config :=
  match numberBelow? UInt64.size s with
  | some n => return { c with fusion := { c.fusion with maxFusions := some n } }
  | none => do
    Traced.note .warn ("Ignoring LOOPWEAVE_MAX_FUSIONS=" ++ s)
    return c

/-- The configuration with a setting of the checks: anything but `0` turns them on. -/
def readValidate (c : Config) (s : String) : Config := { c with validate := trimmed s.toList != ['0'] }

/-- The configuration of an environment with optional settings. -/
def ofEnvironment (level maxFusions validate : Option String) : Traced Config := do
  let c : Config := {}
  let c ← level.elim (pure c) c.readLevel
  let c ← maxFusions.elim (pure c) c.readMaxFusions
  return validate.elim c c.readValidate

end Config

end SsaFusion
