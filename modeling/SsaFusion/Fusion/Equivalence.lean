import SsaFusion.Fusion.Snapshot

/-!
# Control-flow equivalence and equal trip counts

Two loops run equally often if the first dominates the second, the second post-dominates the first, and their guards, if
they have any, decide by the same condition. Their bodies run equally often if both trip counts are the same expression.
-/

namespace SsaFusion

namespace Snapshot

variable (s : Snapshot) (l₁ l₂ : Loop)

/-- Whether two operands are results of the same comparison of the same operands. -/
def sameComparison (a b : Operand) : Bool :=
  match a.var?.bind s.func.definingOp?, b.var?.bind s.func.definingOp? with
  | some (.binary op _ x y), some (.binary op' _ x' y') => op.isComparison && op == op' && x == x' && y == y'
  | _, _ => false

/-- Whether both guards enter their loops under the same condition. -/
def guardsMatch : Bool :=
  match l₁.guard, l₂.guard, l₁.preheader, l₂.preheader with
  | some guard₁, some guard₂, some preheader₁, some preheader₂ =>
    match s.func.term? guard₁, s.func.term? guard₂ with
    | some (.branch c₁ t₁ _), some (.branch c₂ t₂ _) =>
      (t₁ == preheader₁) == (t₂ == preheader₂) && (c₁ == c₂ || s.sameComparison c₁ c₂)
    | _, _ => false
  | _, _, _, _ => false

/-- Whether one loop is entered exactly when the other is. -/
def isEquivalent : Traced Bool :=
  if l₁.isGuarded && l₂.isGuarded && !s.guardsMatch l₁ l₂ then do
    Traced.note .trace
      ("guards of the loops at " ++ blockText l₁.header ++ " and " ++ blockText l₂.header ++ " differ")
    return false
  else
    return s.dom.dominates l₁.gateway l₂.gateway && s.postDom.dominates l₂.gateway l₁.gateway

/-- Whether both trip counts are known and the same. -/
def sameTripCount : Inquiry Bool := do
  let count₁ ← Inquiry.ask (s.tripCount l₁)
  let count₂ ← Inquiry.ask (s.tripCount l₂)
  Inquiry.note .trace ("trip counts: " ++ count₁.text ++ " and " ++ count₂.text)
  return count₁.isKnown && count₂.isKnown && count₁ == count₂

end Snapshot

end SsaFusion
