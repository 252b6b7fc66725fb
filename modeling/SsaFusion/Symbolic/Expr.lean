import SsaFusion.IR.Text

/-!
# Symbolic expressions

An expression describes an integer of a run: constants, values that are not looked into, sums, products, quotients, and
recurrences. The recurrence `{a,+,s}` over a loop header stands for `a + k * s` after the header was reached `k` times
from inside its loop. Expressions are compared as trees; `cmp` orders them by kind first, then part by part.
-/

namespace SsaFusion

/-- A symbolic integer. -/
inductive SymExpr where
  | const (n : Word)
  /-- A value that is not looked into. -/
  | leaf (v : ValueId)
  | add (terms : List SymExpr)
  | mul (factors : List SymExpr)
  | quot (num den : SymExpr)
  /-- Starts with one expression and grows by another on every round of a loop. -/
  | recur (start step : SymExpr) (header : BlockId)
  /-- Not expressible. -/
  | unknown
deriving Inhabited

namespace SymExpr

/-! ## Equality -/

mutual

/-- Decides whether two expressions are the same tree. -/
def decEq : (a b : SymExpr) → Decidable (a = b)
  | const m, const n => decidable_of_iff (m = n) (by simp)
  | leaf v, leaf w => decidable_of_iff (v = w) (by simp)
  | add as, add bs => @decidable_of_iff _ (as = bs) (by simp) (decEqList as bs)
  | mul as, mul bs => @decidable_of_iff _ (as = bs) (by simp) (decEqList as bs)
  | quot a b, quot c d =>
    have := decEq a c
    have := decEq b d
    decidable_of_iff (a = c ∧ b = d) (by simp)
  | recur a s h, recur b t k =>
    have := decEq a b
    have := decEq s t
    decidable_of_iff (a = b ∧ s = t ∧ h = k) (by simp)
  | unknown, unknown => isTrue rfl
  | const _, leaf _ | const _, add _ | const _, mul _ | const _, quot .. | const _, recur .. | const _, unknown
  | leaf _, const _ | leaf _, add _ | leaf _, mul _ | leaf _, quot .. | leaf _, recur .. | leaf _, unknown
  | add _, const _ | add _, leaf _ | add _, mul _ | add _, quot .. | add _, recur .. | add _, unknown
  | mul _, const _ | mul _, leaf _ | mul _, add _ | mul _, quot .. | mul _, recur .. | mul _, unknown
  | quot .., const _ | quot .., leaf _ | quot .., add _ | quot .., mul _ | quot .., recur .. | quot .., unknown
  | recur .., const _ | recur .., leaf _ | recur .., add _ | recur .., mul _ | recur .., quot .. | recur .., unknown
  | unknown, const _ | unknown, leaf _ | unknown, add _ | unknown, mul _ | unknown, quot .. | unknown, recur .. =>
    isFalse (by simp)

/-- Decides whether two lists of expressions are the same. -/
def decEqList : (as bs : List SymExpr) → Decidable (as = bs)
  | [], [] => isTrue rfl
  | [], _ :: _ => isFalse (by simp)
  | _ :: _, [] => isFalse (by simp)
  | a :: as, b :: bs =>
    have := decEq a b
    have := decEqList as bs
    decidable_of_iff (a = b ∧ as = bs) (by simp)

end

instance : DecidableEq SymExpr := decEq

/-! ## Order -/

/-- The place of an expression's kind in the order. -/
def rank : SymExpr → Nat
  | const _ => 0
  | leaf _ => 1
  | add _ => 2
  | mul _ => 3
  | quot .. => 4
  | recur .. => 5
  | unknown => 6

mutual

/-- Compares two expressions by kind and then by their parts from left to right. -/
def cmp : SymExpr → SymExpr → Ordering
  | const m, const n => compare m.toInt n.toInt
  | leaf v, leaf w => compare v w
  | add as, add bs => cmpList as bs
  | mul as, mul bs => cmpList as bs
  | quot a b, quot c d => (cmp a c).then (cmp b d)
  | recur a s h, recur b t k => ((cmp a b).then (cmp s t)).then (compare h k)
  | a, b => compare a.rank b.rank

/-- Compares two lists of expressions element by element; a list comes before its extensions. -/
def cmpList : List SymExpr → List SymExpr → Ordering
  | [], [] => .eq
  | [], _ :: _ => .lt
  | _ :: _, [] => .gt
  | a :: as, b :: bs => (cmp a b).then (cmpList as bs)

end

/-- Whether an expression does not come after another. -/
def le (a b : SymExpr) : Bool := cmp a b != .gt

/-! ## Parts -/

def isKnown (e : SymExpr) : Bool := e != unknown

/-- The value of a constant. -/
def const? : SymExpr → Option Word
  | const n => some n
  | _ => none

/-- Start, step and header of a recurrence. -/
def recur? : SymExpr → Option (SymExpr × SymExpr × BlockId)
  | recur a s h => some (a, s, h)
  | _ => none

def isConst (e : SymExpr) : Bool := e.const?.isSome

def isRecur (e : SymExpr) : Bool := e.recur?.isSome

mutual

/-- The expression with every recurrence over one header turned into the same recurrence over another. -/
def rebase (old new : BlockId) : SymExpr → SymExpr
  | recur a s h => recur (rebase old new a) (rebase old new s) (if h = old then new else h)
  | add ts => add (rebaseList old new ts)
  | mul fs => mul (rebaseList old new fs)
  | quot a b => quot (rebase old new a) (rebase old new b)
  | const n => const n
  | leaf v => leaf v
  | unknown => unknown

/-- The same on every expression of a list. -/
def rebaseList (old new : BlockId) : List SymExpr → List SymExpr
  | [] => []
  | e :: es => rebase old new e :: rebaseList old new es

end

/-! ## Text -/

mutual

/-- Sums and products in parentheses, recurrences in braces with their header. -/
def text : SymExpr → String
  | const n => n.text
  | leaf v => valueText v
  | add ts => "(" ++ joined " + " (texts ts) ++ ")"
  | mul fs => "(" ++ joined " * " (texts fs) ++ ")"
  | quot a b => "(" ++ text a ++ " /u " ++ text b ++ ")"
  | recur a s h => "\x7b" ++ text a ++ ",+," ++ text s ++ "\x7d<" ++ blockText h ++ ">"
  | unknown => "***COULDNOTCOMPUTE***"

/-- The texts of a list of expressions. -/
def texts : List SymExpr → List String
  | [] => []
  | e :: es => text e :: texts es

end

end SymExpr

end SsaFusion
