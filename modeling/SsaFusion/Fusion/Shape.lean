import SsaFusion.Fusion.Legality
import SsaFusion.Validity

/-!
# Shapes of loops that can be fused

Fusion rewires blocks and therefore asks more of a loop than legality does: one latch, which decides between header and
exit, an induction variable, and a body that one block feeds to the latch. Guarded loops also need a guard that goes to
the guard of the second loop, and exits that nothing else shares.
-/

namespace SsaFusion

/-- The blocks that a loop must have. -/
inductive Role where
  | latch | preheader | exit
deriving DecidableEq, Inhabited

def Role.text : Role → String
  | latch => "single latch"
  | preheader => "preheader"
  | exit => "single exit"

/-- Why a pair of loops cannot be fused. -/
inductive Obstacle where
  | missingBlock (header : BlockId) (role : Role)
  | exitNotAtLatch (header : BlockId)
  | unexpectedLatchBranch (latch : BlockId)
  | unexpectedHeaderBranch (header : BlockId)
  | noInductionVariable (header : BlockId)
  | irregularBody (header : BlockId)
  | singleBlockWithBody (header : BlockId)
  | unsupportedPhi (block : BlockId)
  | unmovableInstruction (block : BlockId) (index : Nat)
  | operandUnavailable (value : ValueId) (block : BlockId)
  | sharedExit (block : BlockId)
  | guardMismatch (guard : BlockId)
  | escapingGuardPhi (phi : ValueId)
  | invalidResult (defect : Defect)
  /-- The pair was known not to pass a gate. -/
  | illegalPair (gate : Gate)
  /-- The block where the ways around the second loop meet does not exist. -/
  | missingJoin (block : BlockId)
deriving DecidableEq, Inhabited

/-- The name of a gate in the message about a pair that must not be fused. -/
def Gate.name : Gate → String
  | guardParity => "GuardParity"
  | adjacency => "Adjacency"
  | tripCount => "TripCount"
  | controlFlow => "ControlFlow"
  | dependence => "Dependence"

def Obstacle.message : Obstacle → String
  | missingBlock h r => "loop at " ++ toString h ++ " has no " ++ r.text
  | exitNotAtLatch h => "loop at " ++ toString h ++ " does not exit from its latch"
  | unexpectedLatchBranch b => "latch " ++ toString b ++ " does not branch between its header and exit"
  | unexpectedHeaderBranch h => "header " ++ toString h ++ " does not end in a jump"
  | noInductionVariable h => "loop at " ++ toString h ++ " has no induction variable"
  | irregularBody h => "body of the loop at " ++ toString h ++ " is not fed to the latch by a single block"
  | singleBlockWithBody h => "single-block loop at " ++ toString h ++ " cannot take in body blocks"
  | unsupportedPhi b => "block " ++ toString b ++ " has phis that cannot be moved"
  | unmovableInstruction b n => "instruction " ++ toString n ++ " of " ++ toString b ++ " cannot move across a loop"
  | operandUnavailable v b => toString v ++ " is not available in " ++ toString b
  | sharedExit b => "exit " ++ toString b ++ " is shared with other control flow"
  | guardMismatch b => "guard " ++ toString b ++ " does not have the expected shape"
  | escapingGuardPhi v => "guard phi " ++ toString v ++ " is used past its join block"
  | invalidResult d => "fused function is invalid: " ++ d.message
  | illegalPair g => "fusion planned for an illegal pair: Illegal(" ++ g.name ++ ")"
  | missingJoin b => "join block " ++ toString b ++ " does not exist"

/-- Planning asks questions and may meet an obstacle. -/
abbrev Planning := ExceptT Obstacle Inquiry

/-- A check that asks no question. -/
def Planning.check {α : Type} (e : Except Obstacle α) : Planning α := ExceptT.mk (pure e)

/-! ## Loops -/

/-- The blocks of one loop of a pair. -/
structure LoopShape where
  header : BlockId
  latch : BlockId
  preheader : BlockId
  exit : BlockId
  induction : ValueId
  /-- The first and the last block between header and latch. -/
  body : Option (BlockId × BlockId)
deriving DecidableEq

/-- The block in front of the latch. -/
def LoopShape.last (l : LoopShape) : BlockId := (l.body.map (·.2)).getD l.header

namespace Snapshot

variable (s : Snapshot)

/-- A value that must be there. -/
def need {α : Type} (o : Option α) (why : Obstacle) : Except Obstacle α := o.elim (.error why) .ok

/-- The latch, preheader and exit of a loop that leaves from its latch. -/
def frameOf (l : Loop) : Except Obstacle (BlockId × BlockId × BlockId) := do
  let latch ← need l.latch (.missingBlock l.header .latch)
  let preheader ← need l.preheader (.missingBlock l.header .preheader)
  let exit ← need l.exit (.missingBlock l.header .exit)
  if l.exiting ≠ some latch then .error (.exitNotAtLatch l.header)
  else
    match s.func.term? latch with
    | some (.branch _ t e) =>
      if (t = l.header ∧ e = exit) ∨ (t = exit ∧ e = l.header) then .ok (latch, preheader, exit)
      else .error (.unexpectedLatchBranch latch)
    | _ => .error (.unexpectedLatchBranch latch)

/-- The first and last block between the header and the latch of a loop, if there are any. -/
def bodyOf (l : Loop) (latch : BlockId) : Except Obstacle (Option (BlockId × BlockId)) :=
  if l.header = latch then .ok none
  else
    match s.func.term? l.header with
    | some (.jump first) =>
      if first = latch then .ok none
      else
        match (s.func.predecessors latch).filter l.contains with
        | [last] => .ok (some (first, last))
        | _ => .error (.irregularBody l.header)
    | _ => .error (.unexpectedHeaderBranch l.header)

/-- The shape of a loop. -/
def shapeOf (l : Loop) : Planning LoopShape := do
  let (latch, preheader, exit) ← Planning.check (s.frameOf l)
  let induction ← ExceptT.lift (Inquiry.ask (s.inductionVariable l))
  let induction ← Planning.check (need induction (.noInductionVariable l.header))
  let body ← Planning.check (s.bodyOf l latch)
  return { header := l.header, latch, preheader, exit, induction, body }

end Snapshot

/-! ## Guards -/

/-- The blocks around a guarded pair: the first guard goes to the first preheader or to the second guard, which goes to
the second preheader or to the join. -/
structure GuardShape where
  first : BlockId
  second : BlockId
  join : BlockId
deriving DecidableEq

namespace Snapshot

variable (s : Snapshot)

/-- Whether a block is run only after the join. -/
def pastJoin (g : GuardShape) (b : BlockId) : Bool := s.dom.strictlyDominates g.join b

/-- Whether an instruction may read a phi of the second guard once that phi stands in the join: phis of the join may do
so for the edge from the guard. -/
def mayReadGuardPhi (g : GuardShape) (phi : ValueId) (b : BlockId) (i : Instr) : Bool :=
  match i.sources? with
  | some sources =>
    if b = g.join then (sources.filter (·.2 == .var phi)).all (·.1 == g.second) else s.pastJoin g b
  | none => b == g.join || s.pastJoin g b

/-- Whether a phi of the second guard is read where it will not be available. -/
def guardPhiEscapes (g : GuardShape) (phi : ValueId) : Bool :=
  s.func.numbered.any fun (blk, b) =>
    blk.instrs.any (fun i => i.uses.contains phi && !s.mayReadGuardPhi g phi b i)
      || (blk.term.uses.contains phi && b != g.join && !s.pastJoin g b)

/-- An exit that only the latch goes to and that only goes on to the given block. -/
def isDedicated (exit latch next : BlockId) : Bool :=
  s.func.predecessors exit == [latch] && s.func.term? exit == some (.jump next)

/-- The shape of the guards of a pair. -/
def guardShapeOf (l₁ l₂ : LoopShape) (guard₁ guard₂ : BlockId) : Except Obstacle GuardShape := do
  if s.skipTarget? guard₁ l₁.preheader ≠ some guard₂ then .error (.guardMismatch guard₁)
  let join ← need (s.skipTarget? guard₂ l₂.preheader) (.guardMismatch guard₂)
  if s.func.predecessors guard₂ ≠ ascending [l₁.exit, guard₁] then .error (.guardMismatch guard₂)
  if !s.isDedicated l₁.exit l₁.latch guard₂ then .error (.sharedExit l₁.exit)
  if !s.isDedicated l₂.exit l₂.latch join then .error (.sharedExit l₂.exit)
  let shape : GuardShape := { first := guard₁, second := guard₂, join }
  match ((s.func.phisAt guard₂).filterMap Instr.dest?).find? (s.guardPhiEscapes shape) with
  | some phi => .error (.escapingGuardPhi phi)
  | none => .ok shape

end Snapshot

end SsaFusion
