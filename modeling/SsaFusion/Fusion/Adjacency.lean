import SsaFusion.Fusion.Snapshot

/-!
# Adjacency

A loop directly follows another if control gets from the first to the second through glue blocks only, and the glue reads
nothing that the first loop computes. Glue between guarded loops may do so if its result does not get into the second
loop, as when a result of the first loop is merged with the value it has when that loop is skipped.
-/

namespace SsaFusion

/-- What in the glue reads a value of the first loop. -/
inductive GlueReader where
  | terminator (block : BlockId)
  | instr (block : BlockId) (i : Instr)

def GlueReader.message : GlueReader → String
  | terminator b => blockText b ++ ": terminator consumes a value of the first loop"
  | instr b i => blockText b ++ ": `" ++ i.text ++ "` consumes a value of the first loop"

namespace Snapshot

variable (s : Snapshot) (l₁ l₂ : Loop)

/-- The blocks run after the first loop and before the header of the second, in order. -/
def glue? : Option (List BlockId) := do
  let exit₁ ← l₁.exit
  let preheader₂ ← l₂.preheader
  match l₁.guard, l₂.guard with
  | none, none => if exit₁ = preheader₂ then some [preheader₂] else none
  | some guard₁, some guard₂ =>
    let preheader₁ ← l₁.preheader
    let skip ← s.skipTarget? guard₁ preheader₁
    if skip ≠ guard₂ then none
    else if exit₁ = guard₂ then some [guard₂, preheader₂]
    else if s.func.successors exit₁ = [guard₂] then some [exit₁, guard₂, preheader₂]
    else none
  | _, _ => none

/-- Whether an instruction of the glue reads the first loop in a way that stands against fusion. -/
def readsAcross (i : Instr) : Bool :=
  i.uses.any (s.definedIn l₁) && (!l₁.isGuarded || i.dest?.all (s.readIn l₂))

/-- The first thing in a glue block that stands against fusion. -/
def glueReader? (b : BlockId) : Option GlueReader :=
  match s.func.block? b with
  | none => none
  | some blk =>
    if blk.term.uses.any (s.definedIn l₁) then some (.terminator b)
    else (blk.instrs.find? (s.readsAcross l₁ l₂)).map (.instr b)

/-- Whether the second loop directly follows the first. -/
def isAdjacent : Traced Bool :=
  match s.glue? l₁ l₂ with
  | none => return false
  | some blocks =>
    match blocks.findSome? (s.glueReader? l₁ l₂) with
    | none => return true
    | some r => do
      Traced.note .trace r.message
      return false

end Snapshot

end SsaFusion
