import SsaFusion.Data.Sorting
import SsaFusion.Data.Table
import SsaFusion.Symbolic.Expr

/-!
# Canonical sums, products and quotients

`sum`, `product`, `quotient` and `recurrence` build expressions in canonical form: nested sums and products are
flattened, constants folded, like terms collected, zero terms dropped and parts sorted. Recurrences over one header are
added and scaled part by part. The result is `unknown` when a part is, when a constant leaves the range of words, or when
the result is not affine. The recursions go down in `weight`.
-/

namespace SsaFusion

namespace SymExpr

/-! ## Weight -/

mutual

/-- A size of expressions that every recursive step of `sum` and `product` makes smaller. -/
def weight : SymExpr → Nat
  | const _ | leaf _ | unknown => 1
  | add ts => 2 + weights ts
  | mul fs => 1 + weights fs
  | quot a b => 1 + weight a + weight b
  | recur a s _ => 2 + weight a + weight s

/-- The weight of a list of expressions. -/
def weights : List SymExpr → Nat
  | [] => 0
  | e :: es => weight e + weights es

end

@[simp] theorem weights_append (as bs : List SymExpr) : weights (as ++ bs) = weights as + weights bs := by
  induction as with
  | nil => simp [weights]
  | cons a as ih => simp [weights, ih, Nat.add_assoc]

theorem weights_filter_le (p : SymExpr → Bool) (es : List SymExpr) : weights (es.filter p) ≤ weights es := by
  induction es with
  | nil => simp
  | cons e es ih =>
    simp only [List.filter_cons]
    split <;> simp only [weights] <;> omega

theorem weight_le_weights {e : SymExpr} {es : List SymExpr} (h : e ∈ es) : weight e ≤ weights es := by
  induction es with
  | nil => simp at h
  | cons a es ih =>
    simp only [weights]
    rcases List.mem_cons.mp h with rfl | h
    · omega
    · have := ih h
      omega

/-! ## Recurrences -/

/-- The recurrence with a start and a step; without growth it is its start. -/
def recurrence (start step : SymExpr) (header : BlockId) : SymExpr :=
  if !start.isKnown || !step.isKnown then unknown
  else if step = const 0 then start
  else recur start step header

/-! ## Sums -/

/-- A coefficient times an expression that is not looked into. -/
def scale (c : Word) (base : SymExpr) : SymExpr :=
  if c = 1 then base
  else
    match base with
    | mul fs => mul (const c :: fs)
    | e => mul [const c, e]

/-- The coefficient of a term and the rest of it. -/
def splitCoefficient : SymExpr → Word × SymExpr
  | mul [const c, e] => (c, e)
  | mul (const c :: fs) => (c, mul fs)
  | e => (1, e)

/-- A constant and a coefficient for each base. -/
structure Linear where
  constant : Word := 0
  coefficients : Table SymExpr Word := {}

namespace Linear

/-- The linear form with a term added. -/
def plus? (l : Linear) : SymExpr → Option Linear
  | const n => (Word.add? l.constant n).map fun c => { l with constant := c }
  | e =>
    let (c, base) := e.splitCoefficient
    (Word.add? ((l.coefficients.get? base).getD 0) c).map fun total =>
      { l with coefficients := l.coefficients.insert base total }

/-- The linear form of a list of terms. -/
def collect? (terms : List SymExpr) : Option Linear := terms.foldlM plus? {}

/-- The terms with a coefficient or constant other than zero, sorted. -/
def terms (l : Linear) : List SymExpr :=
  let scaled := (l.coefficients.entries.filter (·.2 != 0)).map fun e => scale e.2 e.1
  sortBy le (if l.constant = 0 then scaled else scaled ++ [const l.constant])

/-- The canonical sum of a linear form. -/
def toExpr (l : Linear) : SymExpr :=
  match l.terms with
  | [] => const 0
  | [e] => e
  | es => add es

end Linear

/-- The terms of a sum with inner sums opened, unless a term is unknown. -/
def openSums : List SymExpr → Option (List SymExpr)
  | [] => some []
  | unknown :: _ => none
  | add ts :: rest => (openSums rest).map (ts ++ ·)
  | e :: rest => (openSums rest).map (e :: ·)

theorem weights_openSums {terms flat : List SymExpr} (h : openSums terms = some flat) :
    weights flat ≤ weights terms := by
  induction terms generalizing flat with
  | nil => simp [openSums] at h; simp [← h]
  | cons e rest ih =>
    cases e <;> simp only [openSums, Option.map_eq_some_iff, reduceCtorEq] at h <;>
      obtain ⟨r, hr, rfl⟩ := h <;> have := ih hr <;> simp only [weights, weight, weights_append] <;> omega

/-- The recurrences of a list of terms, as start, step and header. -/
def recurs (es : List SymExpr) : List (SymExpr × SymExpr × BlockId) := es.filterMap recur?

/-- The terms of a list that are not recurrences. -/
def steady (es : List SymExpr) : List SymExpr := es.filter (!·.isRecur)

theorem weights_recurs (es : List SymExpr) :
    weights (steady es) + weights ((recurs es).map (·.1)) + weights ((recurs es).map (·.2.1)) + 2 * (recurs es).length
      ≤ weights es := by
  induction es with
  | nil => simp [steady, recurs, weights]
  | cons e es ih =>
    cases e <;>
      simp_all [steady, recurs, recur?, isRecur, weights, weight, List.filterMap_cons] <;> omega

set_option linter.unusedVariables false in
/-- The canonical sum of a list of terms. -/
def sum (terms : List SymExpr) : SymExpr :=
  match ho : openSums terms with
  | none => unknown
  | some flat =>
    match hr : recurs flat with
    | [] => ((Linear.collect? flat).map Linear.toExpr).getD unknown
    | r :: more =>
      if more.all (·.2.2 == r.2.2) then
        recurrence (sum (steady flat ++ (r :: more).map (·.1))) (sum ((r :: more).map (·.2.1))) r.2.2
      else unknown
termination_by weights terms
decreasing_by
  all_goals
    have h1 := weights_openSums ho
    have h2 := weights_recurs flat
    rw [hr] at h2
    simp only [weights_append, List.length_cons] at h2 ⊢
    omega

/-- The canonical sum of two expressions. -/
def plus (a b : SymExpr) : SymExpr := sum [a, b]

/-! ## Products -/

/-- The factors of a product with inner products opened, unless a factor is unknown. -/
def openProducts : List SymExpr → Option (List SymExpr)
  | [] => some []
  | unknown :: _ => none
  | mul fs :: rest => (openProducts rest).map (fs ++ ·)
  | e :: rest => (openProducts rest).map (e :: ·)

theorem weights_openProducts {factors flat : List SymExpr} (h : openProducts factors = some flat) :
    weights flat ≤ weights factors := by
  induction factors generalizing flat with
  | nil => simp [openProducts] at h; simp [← h]
  | cons e rest ih =>
    cases e <;> simp only [openProducts, Option.map_eq_some_iff, reduceCtorEq] at h <;>
      obtain ⟨r, hr, rfl⟩ := h <;> have := ih hr <;> simp only [weights, weight, weights_append] <;> omega

/-- The product of the constants of a list, if no partial product from the left leaves the range of words. -/
def constantFactor? (es : List SymExpr) : Option Word := (es.filterMap const?).foldlM Word.mul? 1

/-- The first recurrence of a list and the list without it. -/
def splitRecur? : List SymExpr → Option ((SymExpr × SymExpr × BlockId) × List SymExpr)
  | [] => none
  | recur a s h :: rest => some ((a, s, h), rest)
  | e :: rest => (splitRecur? rest).map fun p => (p.1, e :: p.2)

theorem weights_splitRecur? {es others : List SymExpr} {a s : SymExpr} {h : BlockId}
    (hs : splitRecur? es = some ((a, s, h), others)) : weights es = weights others + 2 + weight a + weight s := by
  induction es generalizing others with
  | nil => simp [splitRecur?] at hs
  | cons e rest ih =>
    cases e <;> simp only [splitRecur?, Option.map_eq_some_iff, Option.some.injEq, Prod.mk.injEq] at hs
    case recur b t k =>
      obtain ⟨⟨rfl, rfl, rfl⟩, rfl⟩ := hs
      simp only [weights, weight]
      omega
    all_goals
      obtain ⟨⟨⟨a', s', h'⟩, others'⟩, hp, ⟨rfl, rfl, rfl⟩, rfl⟩ := hs
      have := ih hp
      simp only [weights, this]
      omega

set_option linter.unusedVariables false in
/-- The canonical product of a list of factors. A constant goes into a sum, so that `-(n - 1)` reads `1 - n`. -/
def product (factors : List SymExpr) : SymExpr :=
  match ho : openProducts factors with
  | none => unknown
  | some flat =>
    match constantFactor? flat with
    | none => unknown
    | some c =>
      if c = 0 then const 0
      else
        match hs : splitRecur? (flat.filter (!·.isConst)) with
        | some ((a, s, h), others) =>
          if others.any isRecur then unknown
          else recurrence (product (others ++ [const c, a])) (product (others ++ [const c, s])) h
        | none =>
          match hf : flat.filter (!·.isConst) with
          | [] => const c
          | [add terms] => sum (terms.attach.map fun t => product [const c, t.1])
          | [e] => scale c e
          | es => scale c (mul (sortBy le es))
termination_by weights factors
decreasing_by
  · have h1 := weights_openProducts ho
    have h2 := weights_filter_le (!·.isConst) flat
    have h3 := weights_splitRecur? hs
    simp only [weights_append, weights, weight]
    omega
  · have h1 := weights_openProducts ho
    have h2 := weights_filter_le (!·.isConst) flat
    have h3 := weights_splitRecur? hs
    simp only [weights_append, weights, weight]
    omega
  · have h1 := weights_openProducts ho
    have h2 := weights_filter_le (!·.isConst) flat
    have h3 := weight_le_weights t.2
    rw [hf] at h2
    simp only [weights, weight] at h2 ⊢
    omega

/-- The canonical product of two expressions. -/
def times (a b : SymExpr) : SymExpr := product [a, b]

/-- The canonical opposite of an expression. -/
def negate (e : SymExpr) : SymExpr := times (const (-1)) e

/-- The canonical difference of two expressions. -/
def minus (a b : SymExpr) : SymExpr := plus a (negate b)

/-! ## Quotients -/

/-- The canonical quotient, rounded so that the remainder is never negative. -/
def quotient (a b : SymExpr) : SymExpr :=
  if !a.isKnown || !b.isKnown then unknown
  else
    match a.const?, b.const? with
    | _, some 0 => unknown
    | _, some 1 => a
    | some m, some n => ((Word.quot? m n).map const).getD unknown
    | _, _ => quot a b

end SymExpr

end SsaFusion
