import SsaFusion.Machine.State

/-!
# Running a function

A run counts a step for every instruction behind the opening phis, for every terminator, and for every phi on entering a
block. The phis of a block read their sources all at once, before any is bound; those of the entry block are not run when
the function starts. A run ends with returned data or with a fault, at the latest when the budget is used up.
-/

namespace SsaFusion

/-- What a finished run reports. -/
structure RunResult where
  values : List Datum
  steps : Nat
  /-- Blocks entered, the entry block included. -/
  visited : Nat
deriving DecidableEq, Inhabited

/-- Where control goes at the end of a block. -/
inductive Transfer where
  | goto (block : BlockId)
  | finish (values : List Datum)

namespace Machine

/-- Runs instructions one after another. -/
def runInstrs (limit : Nat) (m : Machine) : List Instr → Except Fault Machine
  | [] => .ok m
  | i :: rest => do
    let m ← m.tick limit
    let m ← m.execute i.op
    runInstrs limit m rest

/-- Reads the data of a list of operands. -/
def readAll (m : Machine) : List Operand → Except Fault (List Datum)
  | [] => .ok []
  | o :: rest => do
    let d ← m.read o
    let ds ← readAll m rest
    .ok (d :: ds)

/-- What a terminator of a block decides. -/
def transfer (m : Machine) (block : BlockId) : Terminator → Except Fault Transfer
  | .jump t => .ok (.goto t)
  | .branch c t e => do .ok (.goto (if ← m.readBool c then t else e))
  | .ret vs => do .ok (.finish (← m.readAll vs))
  | .unreachable => .error (.unreachable block)

/-- The data that phis receive on the edge from a block, with the state after the steps this takes. -/
def gather (limit : Nat) (pred block : BlockId) (m : Machine) :
    List Instr → Except Fault (Machine × List (ValueId × Datum))
  | [] => .ok (m, [])
  | i :: rest =>
    match i.op with
    | .phi d sources => do
      let m ← m.tick limit
      match sources.find? (·.1 == pred) with
      | none => .error (.missingPhiSource block pred)
      | some s =>
        let datum ← m.read s.2
        let (m, more) ← gather limit pred block m rest
        .ok (m, (d, datum) :: more)
    | _ => gather limit pred block m rest

/-- The state after entering a block from another. -/
def enter (f : Func) (limit : Nat) (m : Machine) (pred block : BlockId) : Except Fault Machine :=
  match f.block? block with
  | none => .error (.missingBlock block)
  | some b => do
    let (m, incoming) ← m.gather limit pred block b.phis
    .ok { m with env := m.env.insertAll incoming }

end Machine

/-- Runs from the start of a block on, whose phis are bound, for at most the given number of blocks. -/
def runBlocks (f : Func) (limit : Nat) : (fuel : Nat) → Machine → BlockId → (visited : Nat) → Except Fault RunResult
  | 0, _, _, _ => .error (.budgetExhausted limit)
  | k + 1, m, block, visited =>
    match f.block? block with
    | none => .error (.missingBlock block)
    | some b => do
      let m ← m.runInstrs limit b.body
      let m ← m.tick limit
      match ← m.transfer block b.term with
      | .finish values => .ok { values, steps := m.steps, visited }
      | .goto next =>
        let m ← m.enter f limit block next
        runBlocks f limit k m next (visited + 1)

/-- The budget of a run that asks for none. -/
def defaultBudget : Nat := 1000000

/-- Runs a function on integer arguments. Every block takes a step, so the budget also bounds the number of blocks. -/
def Func.run (f : Func) (args : List Word) (limit : Nat := defaultBudget) : Except Fault RunResult :=
  if args.length = f.params.length then
    runBlocks f limit (limit + 1) { env := Table.ofList (f.params.zip (args.map .int)) } f.entry 1
  else .error (.arityMismatch f.params.length args.length)

end SsaFusion
