import SsaFusion.Fusion.Plan
import SsaFusion.Sweep

/-!
# The surgery

A plan is carried out as a chain of edits. The phis of the second header join the first header; the code of the second
header and latch goes to the first loop; bodies are spliced in front of the first latch; the first latch leaves to the
second exit. Around guarded loops, the first guard takes over the code of the second, the phis of the second guard go to
the join, and the first exit is merged into the second. A sweep then removes what is left of the second loop.
-/

namespace SsaFusion

namespace Func

/-! ## Moving code -/

/-- Moves the code behind the phis of one block to the end of another. -/
def moveBody (f : Func) (source target : BlockId) : Func :=
  (f.modifyBlock source Block.dropBody).modifyBlock target (·.append (f.bodyAt source))

/-- Moves the phis of one block behind those of another. -/
def movePhis (f : Func) (source target : BlockId) : Func :=
  (f.modifyBlock source Block.dropPhis).modifyBlock target fun b => (f.phisAt source).foldl Block.pushPhi b

/-- The function with one target of a block's terminator replaced. -/
def retargetAt (f : Func) (b old new : BlockId) : Func := f.modifyBlock b (·.mapTerm (Terminator.retarget old new))

/-- The function with the source blocks of all phis renamed, one renaming after another. -/
def renameSources (f : Func) (renamings : List (BlockId × BlockId)) : Func :=
  f.mapBlocks (·.mapInstrs fun i => renamings.foldl (fun i r => i.renameSource r.1 r.2) i)

/-! ## Guards -/

/-- The value that each phi receives on the edge from a block. -/
def incomingFrom (b : BlockId) (phis : List Instr) : Table ValueId Operand :=
  Table.ofList (phis.filterMap fun i => do
    let d ← i.dest?
    let s ← (← i.sources?).find? (·.1 == b)
    return (d, s.2))

/-- An instruction whose phi sources from a block are looked up in a table. -/
def resolveSources (b : BlockId) (values : Table ValueId Operand) (i : Instr) : Instr :=
  { i with op := i.op.mapSources (List.map fun s =>
      if s.1 = b then (s.1, (s.2.var?.bind values.get?).getD s.2) else s) }

/-- Moves the phis of the second guard to the join. What the join receives from the second guard it will receive from
the first, where those phis have the value of that edge. -/
def moveGuardPhis (f : Func) (g : GuardShape) : Func :=
  let phis := f.phisAt g.second
  let f := f.modifyBlock g.second Block.dropPhis
  f.modifyBlock g.join fun b => (b.mapInstrs (resolveSources g.second (incomingFrom g.first phis))).prepend phis

/-- Merges one exit block into another, phis first. -/
def mergeExits (f : Func) (exit₁ exit₂ : BlockId) : Func :=
  let phis := f.phisAt exit₁
  let code := f.bodyAt exit₁
  let f := f.modifyBlock exit₁ fun b => { b with instrs := [] }
  let more := f.phisAt exit₂
  (f.modifyBlock exit₂ Block.dropPhis).modifyBlock exit₂ (·.prepend (phis ++ more ++ code))

end Func

namespace Plan

/-- Moves the glue between guarded loops out of the way. -/
def relocateGlue (p : Plan) (g : GuardShape) (f : Func) : Func :=
  let f := f.moveBody g.second g.first
  let f := f.moveGuardPhis g
  let f := f.mergeExits p.first.exit p.second.exit
  f.retargetAt g.first g.second g.join

/-- Replaces the second induction variable by the first. -/
def unifyInduction (p : Plan) (f : Func) : Func :=
  if p.unify then
    (f.renameUses p.second.induction p.first.induction).modifyBlock p.second.header fun b =>
      { b with instrs := b.instrs.filter (·.dest? != some p.second.induction) }
  else f

/-- The blocks that stand for others as sources of phis. -/
def renamings (p : Plan) : List (BlockId × BlockId) :=
  [(p.second.preheader, p.first.preheader), (p.second.latch, p.first.latch)]
    ++ p.guards.elim [] fun g => [(g.second, g.first), (p.first.exit, p.second.exit)]

/-- Moves the code of the second loop into the first. -/
def moveCode (p : Plan) (f : Func) : Func :=
  let f := f.moveBody p.second.preheader p.first.preheader
  let f := f.movePhis p.second.header p.first.header
  let headerCode := f.bodyAt p.second.header
  let f := f.modifyBlock p.second.header Block.dropBody
  let latchCode := f.bodyAt p.second.latch
  let f := f.modifyBlock p.second.latch Block.dropBody
  let f := f.modifyBlock p.headerHome (·.append headerCode)
  f.modifyBlock p.first.latch (·.append latchCode)

/-- Redirects the edges of the first loop over the second body and to the second exit. -/
def rewire (p : Plan) (f : Func) : Func :=
  let f := f.retargetAt p.first.latch p.first.exit p.second.exit
  match p.second.body with
  | some (first, last) =>
    (f.retargetAt p.first.last p.first.latch first).retargetAt last p.second.latch p.first.latch
  | none => f

/-- All edits of a plan but the sweep. -/
def splice (p : Plan) (f : Func) : Func :=
  let f := p.unifyInduction f
  let f := p.guards.elim f fun g => p.relocateGlue g f
  let f := p.moveCode f
  let f := f.renameSources p.renamings
  p.rewire f

/-- The function after fusion. -/
def apply (p : Plan) (f : Func) : Func := (p.splice f).sweep

end Plan

namespace Snapshot

variable (s : Snapshot)

/-- The function after a plan; with verification, only if it is valid. -/
def carryOut (p : Plan) (verify : Bool) : Traced (Except Obstacle Func) :=
  match p.guards.bind fun g => if s.func.hasBlock g.join then none else some g.join with
  | some b => return .error (.missingJoin b)
  | none => do
    let fused ← (p.splice s.func).sweepTraced
    if verify then
      match fused.func.defect? with
      | some d => return .error (.invalidResult d)
      | none => return .ok fused.func
    else return .ok fused.func

/-- Plans and carries out the fusion of a pair of loops. -/
def fuse (first second : Loop) (legality : Legality) (verify : Bool) : Inquiry (Except Obstacle Func) := do
  match ← (s.plan first second legality).run with
  | .error e => return .error e
  | .ok p =>
    Inquiry.note .trace ("Fusion plan: " ++ p.text)
    Inquiry.take (s.carryOut p verify)

end Snapshot

end SsaFusion
