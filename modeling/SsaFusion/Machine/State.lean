import SsaFusion.Data.Table
import SsaFusion.Machine.Datum

/-!
# The machine

The state of a run: the data bound to values, the allocated arrays and the number of steps taken. Integer arithmetic
wraps around. Operands are read from left to right, and each is checked when it is read, except that an equality reads
both before it compares their kinds.
-/

namespace SsaFusion

/-- The state of a run between two steps. -/
structure Machine where
  env : Table ValueId Datum := {}
  memory : Array (Array Datum) := #[]
  steps : Nat := 0

namespace Machine

variable (m : Machine)

/-- The state with a value bound. -/
def bind (v : ValueId) (d : Datum) : Machine := { m with env := m.env.insert v d }

/-- Counts a step, as long as the budget allows one more. -/
def tick (limit : Nat) : Except Fault Machine :=
  if m.steps < limit then .ok { m with steps := m.steps + 1 } else .error (.budgetExhausted limit)

/-! ## Reading -/

def read : Operand → Except Fault Datum
  | .lit l => .ok (Datum.ofLiteral l)
  | .var v =>
    match m.env.get? v with
    | some d => .ok d
    | none => .error (.unknownValue v)

def readInt (o : Operand) : Except Fault Word := do
  match ← m.read o with
  | .int n => .ok n
  | d => .error (.typeMismatch .integer d)

def readBool (o : Operand) : Except Fault Bool := do
  match ← m.read o with
  | .bool b => .ok b
  | d => .error (.typeMismatch .boolean d)

def readPtr (o : Operand) : Except Fault (Nat × Word) := do
  match ← m.read o with
  | .ptr a n => .ok (a, n)
  | d => .error (.typeMismatch .pointer d)

/-- The cell that an address names, as allocation, index and content. -/
def locate (address : Operand) : Except Fault (Nat × Nat × Datum) := do
  let (a, offset) ← m.readPtr address
  match m.memory[a]? with
  | none => .error (.missingAllocation a)
  | some cells =>
    if offset < 0 then .error (.outOfBounds offset cells.size)
    else
      match cells[offset.toInt.toNat]? with
      | some d => .ok (a, offset.toInt.toNat, d)
      | none => .error (.outOfBounds offset cells.size)

/-! ## Operators -/

/-- Reads two integers and goes on with them. -/
def onInts (left right : Operand) (k : Word → Word → Except Fault Datum) : Except Fault Datum := do
  let a ← m.readInt left
  let b ← m.readInt right
  k a b

/-- Reads two booleans and combines them. -/
def onBools (left right : Operand) (k : Bool → Bool → Bool) : Except Fault Datum := do
  let a ← m.readBool left
  let b ← m.readBool right
  .ok (.bool (k a b))

/-- Whether two operands hold the same integer or the same boolean. -/
def equal (left right : Operand) : Except Fault Bool := do
  let a ← m.read left
  let b ← m.read right
  match a, b with
  | .int x, .int y => .ok (x == y)
  | .bool x, .bool y => .ok (x == y)
  | a, b => .error (.typeMismatch a.kind b)

def unary (op : UnOp) (x : Operand) : Except Fault Datum :=
  match op with
  | .neg => do .ok (.int (-(← m.readInt x)))
  | .not => do .ok (.bool (!(← m.readBool x)))

def binary (op : BinOp) (x y : Operand) : Except Fault Datum :=
  match op with
  | .add => m.onInts x y fun a b => .ok (.int (a + b))
  | .sub => m.onInts x y fun a b => .ok (.int (a - b))
  | .mul => m.onInts x y fun a b => .ok (.int (a * b))
  | .div => m.onInts x y fun a b => if b = 0 then .error .divisionByZero else .ok (.int (a / b))
  | .rem => m.onInts x y fun a b => if b = 0 then .error .divisionByZero else .ok (.int (a % b))
  | .lt => m.onInts x y fun a b => .ok (.bool (decide (a < b)))
  | .le => m.onInts x y fun a b => .ok (.bool (decide (a ≤ b)))
  | .gt => m.onInts x y fun a b => .ok (.bool (decide (b < a)))
  | .ge => m.onInts x y fun a b => .ok (.bool (decide (b ≤ a)))
  | .eq => do .ok (.bool (← m.equal x y))
  | .ne => do .ok (.bool (!(← m.equal x y)))
  | .and => m.onBools x y (· && ·)
  | .or => m.onBools x y (· || ·)

/-! ## Instructions -/

/-- The most cells that an array can have: a cell takes 24 bytes, and the number of bytes is a word. -/
def maxCells : Nat := Word.greatest / 24

/-- The state with a fresh array of zeros, and the number of its allocation. -/
def allocate (size : Nat) : Except Fault (Nat × Machine) :=
  if size ≤ maxCells then
    .ok (m.memory.size, { m with memory := m.memory.push (Array.replicate size (.int 0)) })
  else .error (.arrayTooLarge size)

/-- The state after an operation. A phi behind other instructions does nothing. -/
def execute : Op → Except Fault Machine
  | .assign d x => do .ok (m.bind d (← m.read x))
  | .unary op d x => do .ok (m.bind d (← m.unary op x))
  | .binary op d x y => do .ok (m.bind d (← m.binary op x y))
  | .alloc d size => do
    let (a, m) ← m.allocate size
    .ok (m.bind d (.ptr a 0))
  | .shift d base offset => do
    let delta ← m.readInt offset
    let (a, n) ← m.readPtr base
    .ok (m.bind d (.ptr a (n + delta)))
  | .load d address => do .ok (m.bind d (← m.locate address).2.2)
  | .store address value => do
    let d ← m.read value
    let (a, n, _) ← m.locate address
    .ok { m with memory := m.memory.modify a (·.setIfInBounds n d) }
  | .phi _ _ | .nop => .ok m

end Machine

end SsaFusion
