import SsaFusion.Fusion.Shape

/-!
# Plans

A plan records the shapes of both loops of a pair. It is only made if the code that moves may move: code that gets in
front of the first loop must not touch memory, phis must be where they can be dealt with, and every operand must be
available at its new place.
-/

namespace SsaFusion

/-- A checked recipe for fusing a pair of loops. -/
structure Plan where
  first : LoopShape
  second : LoopShape
  guards : Option GuardShape
  /-- Both induction variables evolve alike, so the second is replaced by the first. -/
  unify : Bool
deriving DecidableEq

namespace Plan

/-- Whether a value is the induction variable that is replaced. -/
def unifies (p : Plan) (v : ValueId) : Bool := p.unify && v == p.second.induction

/-- Where the header code of the second loop goes: the header of the first if a body follows, else its latch. -/
def headerHome (p : Plan) : BlockId := if p.second.body.isSome then p.first.header else p.first.latch

/-! ## Text -/

/-- A record in braces. -/
def braced (title : String) (fields : List String) : String := title ++ " \x7b " ++ joined ", " fields ++ " \x7d"

def shapeText (l : LoopShape) : String :=
  braced "LoopShape"
    ["header: " ++ toString l.header, "latch: " ++ toString l.latch, "preheader: " ++ toString l.preheader,
      "exit: " ++ toString l.exit, "induction: " ++ toString l.induction,
      "body: " ++ l.body.elim "None" fun b => "Some((" ++ toString b.1 ++ ", " ++ toString b.2 ++ "))"]

def guardText (g : GuardShape) : String :=
  braced "GuardedShape"
    ["first_guard: " ++ toString g.first, "second_guard: " ++ toString g.second, "second_join: " ++ toString g.join]

def text (p : Plan) : String :=
  braced "FusionPlan"
    ["first: " ++ shapeText p.first, "second: " ++ shapeText p.second,
      "guards: " ++ p.guards.elim "None" fun g => "Some(" ++ guardText g ++ ")",
      "unify_induction: " ++ if p.unify then "true" else "false"]

end Plan

/-! ## Movable code -/

namespace Snapshot

variable (s : Snapshot)

/-- A block without phis. -/
def withoutPhis (b : BlockId) : Except Obstacle Unit :=
  if (s.func.phisAt b).isEmpty then .ok () else .error (.unsupportedPhi b)

/-- A block whose code may cross a loop. -/
def movable (b : BlockId) : Except Obstacle Unit :=
  match (s.func.bodyAt b).findIdx? fun i => i.touchesMemory || i.hasEffect with
  | some n => .error (.unmovableInstruction b ((s.func.phisAt b).length + n))
  | none => .ok ()

/-- The checks on phis and code that moves. -/
def checkCode (l₁ l₂ : LoopShape) (guards : Option GuardShape) : Except Obstacle Unit := do
  s.withoutPhis l₂.preheader
  if l₁.latch ≠ l₁.header then s.withoutPhis l₁.latch
  if l₂.latch ≠ l₂.header then s.withoutPhis l₂.latch
  s.movable l₂.preheader
  if let some g := guards then
    s.movable g.second
    s.movable l₁.exit
  if let some (entry, _) := l₂.body then
    if l₁.header = l₁.latch then .error (.singleBlockWithBody l₁.header)
    s.withoutPhis entry
    s.movable l₂.header
    s.movable l₁.latch

/-! ## Availability -/

section Placement

variable (p : Plan) (second : Loop)

/-- The new homes of values that move. -/
abbrev Homes := Table ValueId BlockId

/-- The value that stands for a value after fusion. -/
def standIn (v : ValueId) : ValueId := if p.unifies v then p.first.induction else v

/-- The block that defines a value after fusion. -/
def homeOf (homes : Homes) (v : ValueId) : Option BlockId :=
  match homes.get? v with
  | some b => some b
  | none => s.func.definingBlock? v

/-- Whether a block stays inside the second loop, between its header and its latch. -/
def staysInside (b : BlockId) : Bool := second.contains b && b != p.second.header && b != p.second.latch

/-- Checks that a value is available at the end of a block after fusion. -/
def require (homes : Homes) (block : BlockId) (v : ValueId) : Except Obstacle Unit :=
  let v := standIn p v
  match s.homeOf homes v with
  | none => .ok ()
  | some home =>
    let spliced := block == p.first.latch && p.second.body.isSome && staysInside p second home
      && s.dom.dominates home p.second.latch
    if home == block || s.dom.strictlyDominates home block || spliced then .ok ()
    else .error (.operandUnavailable v block)

/-- Checks that a value is available in a block of the second body, which then runs after the first body and before the
first latch. -/
def requireInside (first : Loop) (homes : Homes) (block : BlockId) (v : ValueId) : Except Obstacle Unit :=
  let v := standIn p v
  match s.homeOf homes v with
  | none => .ok ()
  | some home =>
    let ok :=
      if staysInside p second home then s.dom.dominates home block
      else if first.contains home then home != p.first.latch && s.dom.dominates home p.first.last
      else s.dom.dominates home p.first.header
    if ok then .ok () else .error (.operandUnavailable v block)

/-- Checks every value of a list. -/
def checkAll (check : ValueId → Except Obstacle Unit) : List ValueId → Except Obstacle Unit
  | [] => .ok ()
  | v :: rest => do
    check v
    checkAll check rest

/-- Checks the operands of instructions that move to the end of a block and records their new home. -/
def place (block : BlockId) (homes : Homes) : List Instr → Except Obstacle Homes
  | [] => .ok homes
  | i :: rest => do
    checkAll (s.require p second homes block) i.uses
    place block (i.dest?.elim homes fun d => homes.insert d block) rest

/-- The phis of the second header that stay. -/
def keptPhis : List Instr := (s.func.phisAt p.second.header).filter fun i => !i.dest?.any p.unifies

/-- The place where a source of a kept phi must be available. -/
def sourceHome (source : BlockId) : BlockId :=
  if source = p.second.preheader then p.first.preheader else p.first.latch

/-- Checks the sources of the kept phis. -/
def checkPhis (homes : Homes) : List (BlockId × Operand) → Except Obstacle Unit
  | [] => .ok ()
  | (b, o) :: rest => do
    if let some v := o.var? then s.require p second homes (sourceHome p b) v
    checkPhis homes rest

/-- Checks the sources of a phi in the second body. -/
def checkInnerPhi (first : Loop) (homes : Homes) : List (BlockId × Operand) → Except Obstacle Unit
  | [] => .ok ()
  | (b, o) :: rest => do
    if let some v := o.var? then s.requireInside p second first homes b v
    checkInnerPhi first homes rest

/-- Checks the instructions of a block of the second body. -/
def checkInner (first : Loop) (homes : Homes) (block : BlockId) : List Instr → Except Obstacle Unit
  | [] => .ok ()
  | i :: rest => do
    match i.sources? with
    | some sources => s.checkInnerPhi p second first homes sources
    | none => checkAll (s.requireInside p second first homes block) i.uses
    checkInner first homes block rest

/-- Checks the blocks of the second body. -/
def checkBody (first : Loop) (homes : Homes) : List BlockId → Except Obstacle Unit
  | [] => .ok ()
  | b :: rest => do
    if let some blk := s.func.block? b then
      s.checkInner p second first homes b blk.instrs
      checkAll (s.requireInside p second first homes b) blk.term.uses
    checkBody first homes rest

/-- Checks that everything that moves, and everything in the second body, reads available values. -/
def checkAvailability (first : Loop) : Except Obstacle Unit := do
  let homes : Homes := {}
  let homes ← match p.guards with
    | some g => s.place p second g.first homes (s.func.bodyAt g.second)
    | none => .ok homes
  let homes ← s.place p second p.first.preheader homes (s.func.bodyAt p.second.preheader)
  let phis := s.keptPhis p
  let homes := homes.insertAll ((phis.filterMap Instr.dest?).map (·, p.first.header))
  let homes ← s.place p second p.headerHome homes (s.func.bodyAt p.second.header)
  let homes ←
    if p.second.latch ≠ p.second.header then s.place p second p.first.latch homes (s.func.bodyAt p.second.latch)
    else .ok homes
  s.checkPhis p second homes (phis.flatMap fun i => i.sources?.getD [])
  if p.second.body.isSome then
    let inner := second.blocks.filter fun b => b != p.second.header && b != p.second.latch
    s.checkBody p second first homes (ascending inner)

end Placement

/-! ## Planning -/

/-- Whether the induction variables of two loops evolve alike. -/
def sameInduction (l₁ l₂ : LoopShape) : Query Bool := do
  let e₁ ← s.exprOf (.var l₁.induction)
  let e₂ ← s.exprOf (.var l₂.induction)
  return e₁.isKnown && e₁ == e₂.rebase l₂.header l₁.header

/-- Plans the fusion of a pair that passed all gates. -/
def plan (first second : Loop) (legality : Legality) : Planning Plan := do
  if let .illegal g := legality then throw (.illegalPair g)
  let l₁ ← s.shapeOf first
  let l₂ ← s.shapeOf second
  let guards ← match first.guard, second.guard with
    | some g₁, some g₂ => Planning.check ((s.guardShapeOf l₁ l₂ g₁ g₂).map some)
    | _, _ => pure none
  Planning.check (s.checkCode l₁ l₂ guards)
  let unify ← ExceptT.lift (Inquiry.ask (s.sameInduction l₁ l₂))
  let p : Plan := { first := l₁, second := l₂, guards, unify }
  Planning.check (s.checkAvailability p second first)
  return p

end Snapshot

end SsaFusion
