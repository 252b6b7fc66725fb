import SsaFusion.Flow.Graph
import SsaFusion.Trace

/-!
# Sweeping

A sweep first removes the blocks that control never gets to and numbers the rest anew, then removes, round by round, the
instructions without effect whose result nothing reads.
-/

namespace SsaFusion

/-- A function after a transformation, and whether the transformation changed it. -/
structure Change where
  func : Func
  modified : Bool

namespace Func

/-! ## Unreachable blocks -/

/-- The new number of a block when only the listed blocks stay; other numbers stay as they are. -/
def renumber (kept : List BlockId) (b : BlockId) : BlockId := (kept.idxOf? b).getD b

/-- A block that stays, without phi sources from removed blocks and with blocks numbered anew. -/
def relabel (kept dead : List BlockId) (b : Block) : Block :=
  (b.mapInstrs fun i => (i.keepSources (!dead.contains ·)).mapSourceBlocks (renumber kept)).mapTerm
    (Terminator.mapTargets (renumber kept))

/-- The function without the blocks that control never gets to. -/
def compact (f : Func) : Func :=
  let dead := f.unreachableBlocks
  if dead.isEmpty then f
  else
    let kept := f.blockIds.filter (!dead.contains ·)
    { f with
      blocks := (kept.filterMap f.block?).map (relabel kept dead)
      entry := renumber kept f.entry }

/-! ## Dead instructions -/

/-- Whether an instruction has an effect or a result among the values that are read. -/
def isLive (read : List ValueId) (i : Instr) : Bool := i.hasEffect || (i.op != .nop && i.dest?.all read.contains)

/-- The function without the instructions that are dead now. -/
def prune (f : Func) : Func :=
  let read := f.reads
  f.mapBlocks fun b => { b with instrs := b.instrs.filter (isLive read) }

/-- The function after removing dead instructions until none is left. -/
def pruneAll (f : Func) : Func :=
  if f.prune.instrs.length < f.instrs.length then f.prune.pruneAll else f
termination_by f.instrs.length

/-! ## The sweep -/

/-- The function after a sweep. -/
def sweep (f : Func) : Func := f.compact.pruneAll

/-- A sweep with its report. -/
def sweepTraced (f : Func) : Traced Change := do
  let dead := f.unreachableBlocks
  unless dead.isEmpty do
    Traced.note .trace ("Removed " ++ toString dead.length ++ " unreachable blocks from '" ++ f.name ++ "'")
  let g := f.compact
  let h := g.pruneAll
  return { func := h, modified := !dead.isEmpty || decide (h.instrs.length < g.instrs.length) }

end Func

end SsaFusion
