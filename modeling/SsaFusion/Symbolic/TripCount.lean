import SsaFusion.Symbolic.Evolution

/-!
# Trip counts

A loop that leaves from its latch compares a recurrence of its own with a bound that does not change. If the loop goes on
while `x op n` holds for `x = {a,+,s}`, it runs

    x < n     s > 0    (n - a + 2s - 1) / s
    x <= n    s > 0    (n - a + 2s) / s
    x > n     s < 0    (a - n + 2|s| - 1) / |s|
    x >= n    s < 0    (a - n + 2|s|) / |s|
    x != n    s = 1    n - a + 1
    x != n    s = -1   a - n + 1

times, and once if that is less than one. Equal expressions therefore mean equal counts.
-/

namespace SsaFusion

/-- The test of a loop: it goes on while the recurrence with a start and a step compares to a bound. -/
structure ExitTest where
  op : BinOp
  start : SymExpr
  step : SymExpr
  bound : SymExpr
deriving DecidableEq

namespace Subject

variable (s : Subject) (l : Loop)

/-- The comparison that decides at the latch whether the loop goes on, with its operands. -/
def latchTest? : Option (BinOp × Operand × Operand) := do
  let latch ← l.latch
  guard (l.exiting = some latch)
  match s.func.term? latch with
  | some (.branch (.var c) onTrue onFalse) =>
    match s.func.definingOp? c with
    | some (.binary op _ x y) =>
      guard op.isComparison
      if onTrue = l.header then some (op, x, y)
      else if onFalse = l.header then op.negated?.map fun op => (op, x, y)
      else none
    | _ => none
  | _ => none

/-- Start and step of a recurrence over the header of a loop. -/
def ownRecur? (e : SymExpr) : Option (SymExpr × SymExpr) :=
  match e with
  | .recur a t h => if h = l.header then some (a, t) else none
  | _ => none

/-- The test with the recurrence on the left, if one side is a recurrence of the loop and the other does not change. -/
def orient? (op : BinOp) (left right : SymExpr) : Option ExitTest :=
  match ownRecur? l left, ownRecur? l right with
  | some (a, t), _ => if s.isSteady l right then some ⟨op, a, t, right⟩ else none
  | none, some (a, t) => if s.isSteady l left then some ⟨op.swapped, a, t, left⟩ else none
  | none, none => none

/-- The test of a loop. -/
def exitTest : Query (Option ExitTest) := do
  match s.latchTest? l with
  | none => return none
  | some (op, x, y) =>
    let left ← s.exprOf x
    let right ← s.exprOf y
    return s.orient? l op left right

/-- The number of strides that cover a distance, rounded up, and one more stride. -/
def strides (distance : SymExpr) (stride : Word) (inclusive : Bool) : SymExpr :=
  match Word.mul? stride 2 with
  | none => .unknown
  | some twice =>
    (distance.plus (.const (if inclusive then twice else twice - 1))).quotient (.const stride)

/-- The number of runs of a loop with a test. -/
def countOf (t : ExitTest) : SymExpr :=
  match t.step.const? with
  | none => .unknown
  | some step =>
    match t.op with
    | .lt => if 0 < step then strides (t.bound.minus t.start) step false else .unknown
    | .le => if 0 < step then strides (t.bound.minus t.start) step true else .unknown
    | .gt => if step < 0 then strides (t.start.minus t.bound) (Word.opposite step) false else .unknown
    | .ge => if step < 0 then strides (t.start.minus t.bound) (Word.opposite step) true else .unknown
    | .ne =>
      if step = 1 then (t.bound.minus t.start).plus (.const 1)
      else if step = -1 then (t.start.minus t.bound).plus (.const 1)
      else .unknown
    | _ => .unknown

/-- How often the body of a loop runs each time the loop is entered. -/
def tripCount : Query SymExpr := do
  return ((← s.exitTest l).map countOf).getD .unknown

/-- Whether the tested recurrence is the given one, or the given one after a step. -/
def drives (t : ExitTest) (e : SymExpr) : Bool :=
  match ownRecur? l e with
  | some (a, step) => step == t.step && (a == t.start || a.plus step == t.start)
  | none => false

/-- The first value of a list whose expression drives a test. -/
def firstDriver (t : ExitTest) : List ValueId → Query (Option ValueId)
  | [] => return none
  | v :: rest => do
    let e ← s.exprOf (.var v)
    if drives l t e then return some v else firstDriver t rest

/-- The phi of the header that the test of a loop is about. -/
def inductionVariable : Query (Option ValueId) := do
  match ← s.exitTest l with
  | none => return none
  | some t => s.firstDriver l t ((s.func.phisAt l.header).filterMap Instr.dest?)

end Subject

end SsaFusion
