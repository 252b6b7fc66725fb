import SsaFusion.Proofs.Symbolic.Canonical

/-!
# Laws of canonical expressions

The constructors read the canonical form back unchanged (`sum_singleton`, `product_singleton`) and do not depend on the order
of two operands in it (`plus_comm`, `times_comm`). For the order, the form is needed: the terms of an operand have distinct
bases, so that a part overflows only when both operands are in, and an operand has at most one constant factor.
-/

namespace SsaFusion

namespace SymExpr

variable {a s e x y b : SymExpr} {h : BlockId} {l : Linear} {c : Word}

/-! ## The form is read back -/

theorem recurrence_eq (hka : a ≠ unknown) (hks : s ≠ unknown) (hg : s ≠ const 0) (h : BlockId) :
    recurrence a s h = recur a s h := by
  rw [recurrence, if_neg (by simp [isKnown, hka, hks]), if_neg hg]

/-- The sum of a canonical expression is that expression. -/
theorem sum_singleton (hx : Canonical x) : sum [x] = x := by
  induction hx using Canonical.induct with
  | unknown => exact sum_of_unknown (List.mem_singleton_self _)
  | @linear l hl =>
    obtain ⟨l', hl', hpart⟩ := hl.lists_summands.collect?
    rw [sum_eq (by simpa using hl.ne_unknown.symm), List.flatMap_singleton, hl.recurs_summands]
    simp only [hl', Option.map_some, Option.getD_some]
    exact Linear.toExpr_congr (Linear.once_collect? hl') hl.once hpart
  | recur ha hs hka hks hg iha ihs =>
    rw [sum_eq (by simp)]
    simp only [List.flatMap_singleton, summands, recurs, List.filterMap, SymExpr.recur?, steady, List.filter, isRecur]
    simpa [iha, ihs] using recurrence_eq hka hks hg _

/-- A factor of one changes nothing. -/
theorem product_one_cons (es : List SymExpr) : product (const 1 :: es) = product es := by
  by_cases hk : unknown ∈ es
  · rw [product_of_unknown hk, product_of_unknown (List.mem_cons_of_mem _ hk)]
  · have hk' : unknown ∉ const 1 :: es := by simpa using hk
    have hone : Word.mul? 1 1 = some 1 := by decide
    have hconst : constantFactor? ((const 1 :: es).flatMap factors) = constantFactor? (es.flatMap factors) := by
      simp [constantFactor?, factors, const?, hone]
    have hrest : ((const 1 :: es).flatMap factors).filter (!·.isConst) = (es.flatMap factors).filter (!·.isConst) := by
      simp [factors, isConst, const?]
    rw [product_eq hk, product_eq hk', hconst, hrest]

/-- Folding the constants of a scaled base gives the coefficient. -/
theorem IsBase.constantFactor?_scale (hb : IsBase b) (c : Word) : constantFactor? (scale c b).factors = some c := by
  rw [constantFactor?, hb.constants_scale]
  split
  · rename_i hc
    rw [hc]
    rfl
  · simp

theorem IsSummand.product_singleton (ht : IsSummand e) : product [e] = e := by
  rw [product_eq (by simpa using ht.plain.2.2.symm), List.flatMap_singleton]
  cases ht with
  | const n =>
    have hfold : constantFactor? [SymExpr.const n] = some n := by simp [constantFactor?, SymExpr.const?]
    simp only [factors, hfold, Option.map_some, Option.getD_some, productOf]
    split
    · rename_i hn
      rw [hn]
    · rfl
  | @scale c b hne hb =>
    have hs := splitRecur?_steady fun f hf => (hb.shape.isFactor_of_mem hf).isRecur
    rw [hb.shape.constantFactor?_scale, hb.shape.rest_scale]
    simp only [Option.map_some, Option.getD_some, productOf, if_neg hne, hs]
    cases hb.shape with
    | leaf | quot => rfl
    | @mul fs two sorted =>
      have hsort : sortBy le fs = fs :=
        (perm_sortBy le fs).eq_of_pairwise (fun a b _ _ => le_antisymm) (sortBy_pairwise le le_trans le_total fs) sorted
      obtain - | ⟨f, - | ⟨g, rest⟩⟩ := fs
      · cases two
      · cases two with | step two => cases two
      · simp only [factors, hsort]

/-- The product of a canonical expression is that expression. -/
theorem product_singleton (hx : Canonical x) : product [x] = x := by
  induction hx using Canonical.induct with
  | unknown => exact product_of_unknown (List.mem_singleton_self _)
  | @linear l hl =>
    rcases hl.toExpr_cases with ht | ⟨ts, heq, hts⟩
    · exact ht.product_singleton
    · -- a factor of one is taken into every term of the sum
      have hparts : (ts.map fun t => product [const 1, t]) = ts :=
        (List.map_congr_left fun t ht => (product_one_cons [t]).trans (hts t ht).product_singleton).trans (List.map_id ts)
      have hopen : ts.flatMap summands = [add ts].flatMap summands := by
        rw [List.flatMap_singleton, summands, List.flatMap_congr fun t ht => (hts t ht).plain.1, List.flatMap_singleton']
      have hk : unknown ∉ ts := fun hmem => (hts _ hmem).plain.2.2 rfl
      have hsum : sum ts = sum [add ts] := by rw [sum_eq hk, sum_eq (by simp), hopen]
      rw [heq, product_eq (by simp)]
      change sum (ts.map fun t => product [const 1, t]) = add ts
      rw [hparts, hsum, ← heq, sum_singleton hl.canonical]
  | recur ha hs hka hks hg iha ihs =>
    rw [product_eq (by simp)]
    change recurrence (product [const 1, _]) (product [const 1, _]) _ = _
    rw [product_one_cons, product_one_cons, iha, ihs, recurrence_eq hka hks hg]

/-! ## Two operands in either order -/

theorem recurs_append (ts us : List SymExpr) : recurs (ts ++ us) = recurs ts ++ recurs us := List.filterMap_append

theorem steady_append (ts us : List SymExpr) : steady (ts ++ us) = steady ts ++ steady us := List.filter_append ..

theorem flatMap_pair (g : SymExpr → List SymExpr) (x y : SymExpr) : [x, y].flatMap g = g x ++ g y := by simp

/-- A sum of a linear form and a recurrence starts with the sum of the form and the start. -/
theorem Linear.Proper.plus_recur (hl : l.Proper) (a s : SymExpr) (h : BlockId) :
    plus l.toExpr (recur a s h) = plus (recur a s h) l.toExpr := by
  have hk := hl.ne_unknown.symm
  rw [plus, plus, sum_eq (by simp [hk]), sum_eq (by simp [hk])]
  simp only [flatMap_pair, recurs_append, steady_append, hl.recurs_summands, hl.steady_summands]
  simp [summands, recurs, steady, recur?, isRecur]

/-- Canonical sums do not depend on the order of two operands. -/
theorem plus_comm (hx : Canonical x) (hy : Canonical y) : plus x y = plus y x := by
  induction hx using Canonical.induct generalizing y with
  | unknown => rw [plus, plus, sum_of_unknown (by simp), sum_of_unknown (by simp)]
  | @linear l hl =>
    induction hy using Canonical.induct with
    | unknown => rw [plus, plus, sum_of_unknown (by simp), sum_of_unknown (by simp)]
    | @linear l' hl' =>
      have hk := hl.ne_unknown.symm
      have hk' := hl'.ne_unknown.symm
      rw [plus, plus, sum_eq (by simp [hk, hk']), sum_eq (by simp [hk, hk'])]
      simp only [flatMap_pair, recurs_append, hl.recurs_summands, hl'.recurs_summands, List.append_nil,
        hl.lists_summands.collect?_comm hl'.lists_summands]
    | recur => exact hl.plus_recur ..
  | @recur a s h _ _ _ _ _ iha ihs =>
    induction hy using Canonical.induct with
    | unknown => rw [plus, plus, sum_of_unknown (by simp), sum_of_unknown (by simp)]
    | linear hl => exact (hl.plus_recur ..).symm
    | @recur a' s' h' ha' hs' =>
      rw [plus, plus, sum_eq (by simp), sum_eq (by simp)]
      change (if [(a', s', h')].all (·.2.2 == h) then recurrence (plus a a') (plus s s') h else unknown) =
        if [(a, s, h)].all (·.2.2 == h') then recurrence (plus a' a) (plus s' s) h' else unknown
      by_cases hh : h = h'
      · rw [iha ha', ihs hs', hh]
        rfl
      · rw [if_neg (by simpa using Ne.symm hh), if_neg (by simpa using hh)]

/-- An operand has at most one constant. -/
theorem Canonical.constants_le_one (hx : Canonical x) : (x.factors.filterMap SymExpr.const?).length ≤ 1 := by
  induction hx using Canonical.induct with
  | unknown => exact Nat.zero_le 1
  | @linear l hl =>
    rcases hl.toExpr_cases with ht | ⟨ts, heq, -⟩
    · generalize l.toExpr = e at ht
      cases ht with
      | const n => exact Nat.le_refl 1
      | @scale c b _ hb =>
        rw [hb.shape.constants_scale]
        split <;> simp
    · rw [heq]
      exact Nat.zero_le 1
  | recur => exact Nat.zero_le 1

theorem constantFactor?_comm (hx : Canonical x) (hy : Canonical y) :
    constantFactor? (x.factors ++ y.factors) = constantFactor? (y.factors ++ x.factors) := by
  have hx := hx.constants_le_one
  have hy := hy.constants_le_one
  unfold constantFactor?
  rw [List.filterMap_append, List.filterMap_append]
  generalize x.factors.filterMap const? = ms at hx
  generalize y.factors.filterMap const? = ns at hy
  have htwo : ∀ m n : Word, ([m] ++ [n]).foldlM Word.mul? 1 = Word.mul? m n := fun m n => by simp
  match ms, ns, hx, hy with
  | [], _, _, _ => rw [List.nil_append, List.append_nil]
  | [m], [], _, _ => rfl
  | [m], [n], _, _ => rw [htwo, htwo, Word.mul?_comm]

/-- What is left of an operand apart from its constant is a recurrence or has none. -/
theorem Canonical.rest_cases (hx : Canonical x) (hk : x ≠ .unknown) :
    (∃ a s h, x.factors.filter (!·.isConst) = [.recur a s h]) ∨ ∀ f ∈ x.factors.filter (!·.isConst), f.isRecur = false := by
  induction hx using Canonical.induct with
  | unknown => exact absurd rfl hk
  | linear hl =>
    refine Or.inr fun f hf => ?_
    have hf := (List.mem_filter.mp hf).1
    rcases hl.toExpr_cases with ht | ⟨ts, heq, -⟩
    · rcases (ht.of_mem_factors hf).2 with hf | ⟨n, rfl⟩
      · exact hf.isRecur
      · rfl
    · rw [heq] at hf
      obtain rfl := List.mem_singleton.mp hf
      rfl
  | recur => exact Or.inl ⟨_, _, _, rfl⟩

theorem productOf_comm {rest rest' : List SymExpr}
    (hrest : (∃ a s h, rest = [recur a s h]) ∨ ∀ f ∈ rest, f.isRecur = false)
    (hrest' : (∃ a s h, rest' = [recur a s h]) ∨ ∀ f ∈ rest', f.isRecur = false) (c : Word) :
    productOf c (rest ++ rest') = productOf c (rest' ++ rest) := by
  have one : ∀ {a s : SymExpr} {h : BlockId} {rest : List SymExpr}, (∀ f ∈ rest, f.isRecur = false) →
      productOf c ([recur a s h] ++ rest) = productOf c (rest ++ [recur a s h]) := by
    intro a s h rest hrest
    unfold productOf
    rw [splitRecur?_last hrest]
    rfl
  rcases hrest with ⟨a, s, h, rfl⟩ | hrest <;> rcases hrest' with ⟨a', s', h', rfl⟩ | hrest'
  · rfl
  · exact one hrest'
  · exact (one hrest).symm
  · exact productOf_perm List.perm_append_comm fun f hf => (List.mem_append.mp hf).elim (hrest f) (hrest' f)

/-- Canonical products do not depend on the order of two operands. -/
theorem times_comm (hx : Canonical x) (hy : Canonical y) : times x y = times y x := by
  unfold times
  by_cases hk : x = unknown ∨ y = unknown
  · rw [product_of_unknown (by simp [eq_comm, hk]), product_of_unknown (by simp [eq_comm, hk.symm])]
  · have hk' := not_or.mp hk
    rw [product_eq (by simp [eq_comm, hk]), product_eq (by simp [eq_comm, or_comm, hk]), flatMap_pair, flatMap_pair,
      constantFactor?_comm hx hy, List.filter_append, List.filter_append]
    simp only [productOf_comm (hx.rest_cases hk'.1) (hy.rest_cases hk'.2)]

/-! ## What the constructors build -/

/-- **Canonical forms are stable, and the order of operands does not matter.** Of what the constructors build, two
expressions have the same sum and the same product in either order, be it only that both are unknown, and an expression
is its own sum and its own product. -/
theorem constructed_stable (hx : Constructed x) (hy : Constructed y) :
    plus x y = plus y x ∧ times x y = times y x ∧ sum [x] = x ∧ product [x] = x :=
  ⟨plus_comm hx.canonical hy.canonical, times_comm hx.canonical hy.canonical, sum_singleton hx.canonical,
    product_singleton hx.canonical⟩

/-- A product with a sum as a factor. -/
def area : SymExpr := times (leaf 0) (plus (leaf 1) (const 1))

/-- A recurrence whose start is the greatest constant, so that a second one added to it overflows. -/
def descent : SymExpr := recurrence (const Int64.maxValue) (negate (leaf 0)) 4

theorem area_descent_stable :
    (Constructed area ∧ Constructed descent) ∧
      plus area descent = plus descent area ∧ times area descent = times descent area ∧ sum [area] = area ∧
        product [area] = area :=
  have harea : Constructed area := .times (.leaf 0) (.plus (.leaf 1) (.const 1))
  have hdescent : Constructed descent := .recurrence (.const _) (.negate (.leaf 0)) 4
  ⟨⟨harea, hdescent⟩, constructed_stable harea hdescent⟩

end SymExpr

end SsaFusion
