import SsaFusion.Flow.Nest
import SsaFusion.Symbolic.Normal

/-!
# How values evolve

`exprOf` gives the symbolic expression of an operand. Copies, negations, sums, differences and products are followed; a
phi of a loop header becomes a recurrence when its value on the way back is the phi plus something that does not change
in the loop; everything else is a leaf. Answers are kept in a memo table, which later questions consult.

To find the growth of a header phi, its value on the way back is expressed with the phi itself as a leaf. What the memo
table learned meanwhile mentions that leaf and is forgotten again.
-/

namespace SsaFusion

/-- The expressions found so far. -/
abbrev Memo := Table ValueId SymExpr

/-- A question about a function: it may extend the memo table, and it has no answer if finding one would go on for ever. -/
abbrev Query := StateT Memo Option

namespace Query

variable {α β : Type} {memo : Memo}

theorem bind_eq_some_iff {q : Query α} {g : α → Query β} {r : β × Memo} :
    (q >>= g) memo = some r ↔ ∃ a memo', q memo = some (a, memo') ∧ g a memo' = some r := by
  simp only [bind, StateT.bind, Option.bind_eq_some_iff, Prod.exists]

theorem pure_eq_some_iff {a b : α} {memo' : Memo} : (pure a : Query α) memo = some (b, memo') ↔ a = b ∧ memo = memo' := by
  change some (a, memo) = some (b, memo') ↔ _
  rw [Option.some.injEq, Prod.mk.injEq]

theorem eq_some_of_lift {o : Option α} {a : α} {memo' : Memo} (h : (liftM o : Query α) memo = some (a, memo')) :
    o = some a := by
  cases o <;> cases h
  rfl

end Query

/-- A function with its loops, about which questions are asked. -/
structure Subject where
  func : Func
  nest : LoopNest

namespace Subject

variable (s : Subject)

/-! ## Invariance -/

/-- Whether a value is defined, and not by an instruction of a loop. -/
def isSteadyValue (l : Loop) (v : ValueId) : Bool :=
  match s.func.site? v with
  | some .param => true
  | some (.instr b _) => !l.contains b
  | none => false

/-- Whether an operand is the same all through a run of a loop. -/
def isSteadyOperand (l : Loop) : Operand → Bool
  | .lit _ => true
  | .var v => s.isSteadyValue l v

mutual

/-- Whether an expression is the same all through a run of a loop. -/
def isSteady (l : Loop) : SymExpr → Bool
  | .const _ => true
  | .leaf v => s.isSteadyValue l v
  | .add ts => allSteady l ts
  | .mul fs => allSteady l fs
  | .quot a b => isSteady l a && isSteady l b
  | .recur _ _ h => !l.contains h
  | .unknown => false

/-- Whether all expressions of a list are the same all through a run of a loop. -/
def allSteady (l : Loop) : List SymExpr → Bool
  | [] => true
  | e :: es => isSteady l e && allSteady l es

end

/-! ## Expressions of values -/

section

variable (ask : ValueId → Query SymExpr)

/-- The expression of an operand, given that of values. -/
def operandExpr : Operand → Query SymExpr
  | .lit (.int n) => pure (.const n)
  | .lit (.bool _) => pure .unknown
  | .var v => ask v

/-- The operands of a header phi from outside the loop and from inside, if there is one of each. -/
def splitSources (l : Loop) : List (BlockId × Operand) → Option (Operand × Operand)
  | [(b, x), (c, y)] =>
    match l.contains b, l.contains c with
    | false, true => some (x, y)
    | true, false => some (y, x)
    | _, _ => none
  | _ => none

/-- The recurrence of a header phi that starts with one operand and comes back as another. -/
def recurrenceOf (l : Loop) (phi : ValueId) (start next : Operand) : Query (Option SymExpr) := do
  let saved ← get
  set (saved.insert phi (.leaf phi))
  let next ← operandExpr ask next
  set saved
  let step := next.minus (.leaf phi)
  let start ← operandExpr ask start
  if step.isKnown && start.isKnown && s.isSteady l step && s.isSteady l start then
    return some (SymExpr.recurrence start step l.header)
  else
    return none

/-- The expression of a phi in a block. -/
def phiExpr (phi : ValueId) (block : BlockId) (sources : List (BlockId × Operand)) : Query SymExpr :=
  match s.nest.loopOf block with
  | some l =>
    if l.header = block then
      match splitSources l sources with
      | some (start, next) => return (← s.recurrenceOf ask l phi start next).getD (.leaf phi)
      | none => return .leaf phi
    else return .leaf phi
  | none => return .leaf phi

/-- The expression of a value from its definition. -/
def definitionExpr (v : ValueId) : Query SymExpr :=
  match s.func.site? v with
  | none => return .unknown
  | some .param => return .leaf v
  | some (.instr b n) =>
    match (s.func.instrAt? b n).map Instr.op with
    | some (.assign _ x) => operandExpr ask x
    | some (.unary .neg _ x) => return (← operandExpr ask x).negate
    | some (.binary .add _ x y) => return (← operandExpr ask x).plus (← operandExpr ask y)
    | some (.binary .sub _ x y) => return (← operandExpr ask x).minus (← operandExpr ask y)
    | some (.binary .mul _ x y) => return (← operandExpr ask x).times (← operandExpr ask y)
    | some (.phi _ sources) => s.phiExpr ask v b sources
    | _ => return .leaf v

/-- Answers from the memo table, or finds the answer and keeps it. -/
def remember (v : ValueId) (answer : Query SymExpr) : Query SymExpr := do
  match (← get).get? v with
  | some e => return e
  | none =>
    let e ← answer
    modify (·.insert v e)
    return e

end

/-- The expression of a value, found with at most the given number of definitions on the way. -/
def valueExpr : (depth : Nat) → ValueId → Query SymExpr
  | 0, _ => failure
  | k + 1, v => remember v (s.definitionExpr (valueExpr k) v)

/-- A depth that no chain of definitions exceeds unless it goes round in a circle: between two header phis taken as
leaves no definition repeats, and no header phi is taken as a leaf twice. -/
def depthBound : Nat := (s.func.instrs.length + 2) * (s.func.instrs.length + 2)

/-- The expression of an operand. There is no answer if the definitions go round in a circle. -/
def exprOf (o : Operand) : Query SymExpr := operandExpr (s.valueExpr s.depthBound) o

end Subject

end SsaFusion
