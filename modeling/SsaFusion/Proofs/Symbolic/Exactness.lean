import SsaFusion.Proofs.Symbolic.Meaning

/-!
# Exact constructors

Given parts in which nothing is unknown, a canonical constructor gives up as a whole or not at all: its result is `unknown`,
or an expression in which nothing is unknown and whose value is that of the operation, over the unbounded integers. It
divides by zero nowhere that its parts do not. Both are closure properties of one predicate (`Built`), which allows the
quotients that meet a condition.

The recursions of `sum` and `product` end because the calls that they make are well founded (`makes_wellFounded`): inside each
of the two the arguments lose weight, and a sum never asks for a product.
-/

namespace SsaFusion

namespace SymExpr

mutual

/-- Nothing in an expression is unknown, and every quotient in it meets a condition. -/
def Built (ok : SymExpr → SymExpr → Prop) : SymExpr → Prop
  | const _ | leaf _ => True
  | add ts => BuiltAll ok ts
  | mul fs => BuiltAll ok fs
  | quot a b => ok a b ∧ Built ok a ∧ Built ok b
  | recur a s _ => Built ok a ∧ Built ok s
  | unknown => False

/-- The same of every expression of a list. -/
def BuiltAll (ok : SymExpr → SymExpr → Prop) : List SymExpr → Prop
  | [] => True
  | e :: es => Built ok e ∧ BuiltAll ok es

end

/-- Nothing in an expression is unknown, at any depth. -/
def Whole (e : SymExpr) : Prop := e.Built fun _ _ => True

/-- Nothing in an expression is unknown or divides by zero. -/
def Defined (v : Valuation) (e : SymExpr) : Prop := e.Built fun _ b => evalIn v b ≠ 0

variable {ok : SymExpr → SymExpr → Prop} {a b e s : SymExpr} {es flat others : List SymExpr} {c : Word} {h : BlockId}

theorem builtAll_iff : BuiltAll ok es ↔ ∀ e ∈ es, Built ok e := by
  induction es with
  | nil => simp [BuiltAll]
  | cons e es ih => simp [BuiltAll, ih]

@[simp] theorem built_const (n : Word) : Built ok (const n) := trivial

@[simp] theorem built_add : Built ok (add es) ↔ ∀ e ∈ es, Built ok e := builtAll_iff

@[simp] theorem built_mul : Built ok (mul es) ↔ ∀ e ∈ es, Built ok e := builtAll_iff

@[simp] theorem built_recur : Built ok (recur a s h) ↔ Built ok a ∧ Built ok s := Iff.rfl

/-! ## Linear forms -/

theorem built_scale (he : Built ok e) : Built ok (scale c e) := by
  unfold scale
  split
  · exact he
  · split
    · simpa using he
    · simpa using he

theorem built_splitCoefficient (he : Built ok e) : Built ok e.splitCoefficient.2 := by
  unfold splitCoefficient
  split
  · simpa using he
  · exact built_mul.mpr fun f hf => built_mul.mp he f (List.mem_cons_of_mem _ hf)
  · exact he

namespace Linear

/-- The bases of a linear form are built. -/
def Built (ok : SymExpr → SymExpr → Prop) (l : Linear) : Prop := ∀ x ∈ l.coefficients.entries, x.1.Built ok

theorem built_plus? {l l' : Linear} (hl : l.Built ok) (he : e.Built ok) (h : l.plus? e = some l') : l'.Built ok := by
  unfold plus? at h
  split at h
  · obtain ⟨c, -, rfl⟩ := Option.map_eq_some_iff.mp h
    exact hl
  · obtain ⟨c, -, rfl⟩ := Option.map_eq_some_iff.mp h
    intro x hx
    rcases mem_put hx with rfl | hx
    · exact built_splitCoefficient he
    · exact hl x hx

theorem built_collect? {l : Linear} (hes : ∀ e ∈ es, e.Built ok) (h : collect? es = some l) : l.Built ok := by
  refine foldlM_induction (P := Built ok) (fun x hx => ?_) (fun e he l l' hl => built_plus? hl (hes e he)) h
  cases hx

theorem built_terms {l : Linear} (hl : l.Built ok) : ∀ e ∈ l.terms, e.Built ok := by
  intro e he
  rcases mem_terms he with ⟨x, hx, -, rfl⟩ | rfl
  · exact built_scale (hl x hx)
  · exact built_const _

theorem built_toExpr {l : Linear} (hl : l.Built ok) : l.toExpr.Built ok := by
  have hterms := built_terms hl
  unfold toExpr
  split
  · exact built_const 0
  · rename_i e hone
    rw [hone] at hterms
    exact hterms e (List.mem_singleton_self e)
  · exact built_add.mpr hterms

end Linear

/-! ## Sums and products -/

theorem built_recurrence (ha : Built ok a) (hs : Built ok s) (hk : (recurrence a s h).isKnown = true) :
    Built ok (recurrence a s h) := by
  unfold recurrence at hk ⊢
  split at hk
  · cases hk
  · rename_i hparts
    rw [if_neg hparts]
    split
    · exact ha
    · exact ⟨ha, hs⟩

theorem built_openSums (hes : ∀ e ∈ es, Built ok e) (ho : openSums es = some flat) : ∀ e ∈ flat, Built ok e := by
  intro t ht
  obtain ⟨e, he, ht⟩ := exists_mem_summands ho ht
  have hbuilt := hes e he
  cases e with
  | add ts => exact built_add.mp hbuilt t ht
  | _ => exact List.mem_singleton.mp ht ▸ hbuilt

/-- A known sum of built terms is built. -/
theorem built_sum (hes : ∀ e ∈ es, Built ok e) (hk : (sum es).isKnown = true) : Built ok (sum es) := by
  fun_induction sum es with
  | case1 | case4 => cases hk
  | case2 es flat ho hr =>
    cases hl : Linear.collect? flat with
    | none =>
      rw [hl] at hk
      cases hk
    | some l => exact Linear.built_toExpr (Linear.built_collect? (built_openSums hes ho) hl)
  | case3 es flat ho x more hr hall ihStart ihStep =>
    obtain ⟨hstart, hstep, -⟩ := recurrence_exactIn hk
    have hflat := built_openSums hes ho
    have hpart : ∀ y ∈ x :: more, Built ok y.1 ∧ Built ok y.2.1 :=
      fun y hy => built_recur.mp (hflat _ (mem_of_mem_recurs (hr ▸ hy)))
    refine built_recurrence (ihStart (List.forall_mem_append.mpr ⟨fun e he => ?_, ?_⟩) hstart) (ihStep ?_ hstep) hk
    · exact hflat e (List.mem_filter.mp he).1
    · exact List.forall_mem_map.mpr fun y hy => (hpart y hy).1
    · exact List.forall_mem_map.mpr fun y hy => (hpart y hy).2

theorem built_openProducts (hes : ∀ e ∈ es, Built ok e) (ho : openProducts es = some flat) : ∀ e ∈ flat, Built ok e := by
  intro f hf
  obtain ⟨e, he, hf⟩ := exists_mem_factors ho hf
  have hbuilt := hes e he
  cases e with
  | mul fs => exact built_mul.mp hbuilt f hf
  | _ => exact List.mem_singleton.mp hf ▸ hbuilt

/-- A known product of built factors is built. -/
theorem built_product (hes : ∀ e ∈ es, Built ok e) (hk : (product es).isKnown = true) : Built ok (product es) := by
  fun_induction product es with
  | case1 | case2 | case4 => cases hk
  | case3 | case6 => exact built_const _
  | case5 es flat ho c hc _ a s h others hs _ ihStart ihStep =>
    obtain ⟨hstart, hstep, -⟩ := recurrence_exactIn hk
    obtain ⟨-, hmem, hothers⟩ := splitRecur?_exact hs
    have hflat : ∀ e ∈ flat.filter (!·.isConst), Built ok e := fun e he => built_openProducts hes ho e (List.mem_filter.mp he).1
    have hpart : ∀ t, Built ok t → ∀ e ∈ others ++ [const c, t], Built ok e := fun t ht =>
      List.forall_mem_append.mpr ⟨fun e he => hflat e (hothers e he), by simpa using ht⟩
    obtain ⟨ha, hs⟩ := built_recur.mp (hflat _ hmem)
    exact built_recurrence (ihStart (hpart a ha) hstart) (ihStep (hpart s hs) hstep) hk
  | case7 es flat ho c hc _ _ terms hf ih =>
    have hterms : Built ok (add terms) := built_openProducts hes ho _ (List.mem_filter.mp (hf ▸ List.mem_singleton_self _)).1
    obtain ⟨hparts, -, -⟩ := sum_exactIn hk
    refine built_sum (List.forall_mem_map.mpr fun t ht => ih t ?_ (hparts _ (List.mem_map_of_mem ht))) hk
    simpa using built_add.mp hterms t.1 t.2
  | case8 es flat ho c hc _ _ e _ hf =>
    exact built_scale (built_openProducts hes ho e (List.mem_filter.mp (hf ▸ List.mem_singleton_self _)).1)
  | case9 es flat ho c hc =>
    refine built_scale (built_mul.mpr fun e he => ?_)
    exact built_openProducts hes ho e (List.mem_filter.mp (mem_sortBy.mp he)).1

theorem built_negate (he : Built ok e) (hk : e.negate.isKnown = true) : Built ok e.negate :=
  built_product (by simpa using he) hk

theorem built_quotient (ha : Built ok a) (hb : Built ok b) (hok : ok a b) (hk : (a.quotient b).isKnown = true) :
    Built ok (a.quotient b) := by
  unfold quotient at hk ⊢
  split at hk
  · cases hk
  · rename_i hparts
    rw [if_neg hparts]
    split at hk
    · cases hk
    · exact ha
    · cases hq : Word.quot? _ _ with
      | none => simp [hq, isKnown] at hk
      | some q => exact built_const q
    · exact ⟨hok, ha, hb⟩

/-! ## Calls -/

/-- A call of one of the two recursive constructors. -/
inductive Call where
  | sum (terms : List SymExpr)
  | product (factors : List SymExpr)

namespace Call

/-- The calls that a call may make. Conditions that only keep a call from being made are left out. -/
inductive Makes : Call → Call → Prop
  | starts {terms flat : List SymExpr} (ho : openSums terms = some flat) (hr : recurs flat ≠ []) :
    Makes (sum terms) (sum (steady flat ++ (recurs flat).map (·.1)))
  | steps {terms flat : List SymExpr} (ho : openSums terms = some flat) (hr : recurs flat ≠ []) :
    Makes (sum terms) (sum ((recurs flat).map (·.2.1)))
  | scaledStart {factors flat others : List SymExpr} {c : Word} {a s : SymExpr} {h : BlockId}
    (ho : openProducts factors = some flat) (hs : splitRecur? (flat.filter (!·.isConst)) = some ((a, s, h), others)) :
    Makes (product factors) (product (others ++ [const c, a]))
  | scaledStep {factors flat others : List SymExpr} {c : Word} {a s : SymExpr} {h : BlockId}
    (ho : openProducts factors = some flat) (hs : splitRecur? (flat.filter (!·.isConst)) = some ((a, s, h), others)) :
    Makes (product factors) (product (others ++ [const c, s]))
  | scaledTerm {factors flat terms : List SymExpr} {c : Word} {t : SymExpr}
    (ho : openProducts factors = some flat) (hf : flat.filter (!·.isConst) = [add terms]) (ht : t ∈ terms) :
    Makes (product factors) (product [const c, t])
  | scaledTerms (factors terms : List SymExpr) : Makes (product factors) (sum terms)

/-- What goes down from a call to the calls that it makes: products come after sums, then weight counts. -/
def size : Call → Nat × Nat
  | sum terms => (0, weights terms)
  | product factors => (1, weights factors)

theorem size_lt_of_makes {x y : Call} (h : Makes x y) : Prod.Lex (· < ·) (· < ·) y.size x.size := by
  cases h with
  | @starts terms flat ho hr | @steps terms flat ho hr =>
    have hopen := weights_openSums ho
    have hparts := weights_recurs flat
    rw [← weights_append] at hparts
    have hsome := List.length_pos_iff.mpr hr
    refine Prod.Lex.right _ ?_
    omega
  | @scaledStart factors flat others c a s h ho hs | @scaledStep factors flat others c a s h ho hs =>
    have hopen := weights_openProducts ho
    have hfilter := weights_filter_le (!·.isConst) flat
    have hsplit := weights_splitRecur? hs
    refine Prod.Lex.right _ ?_
    simp only [weights_append, weights, weight]
    omega
  | @scaledTerm factors flat terms c t ho hf ht =>
    have hopen := weights_openProducts ho
    have hfilter := weights_filter_le (!·.isConst) flat
    have hterm := weight_le_weights ht
    rw [hf] at hfilter
    refine Prod.Lex.right _ ?_
    simp only [weights, weight] at hfilter ⊢
    omega
  | scaledTerms => exact Prod.Lex.left _ _ Nat.zero_lt_one

/-- There is no endless chain of calls. -/
theorem makes_wellFounded : WellFounded fun x y : Call => Makes y x :=
  Subrelation.wf size_lt_of_makes (InvImage.wf size (WellFounded.prod_lex wellFounded_lt wellFounded_lt))

end Call

/-! ## The constructors -/

/-- An expression that is `unknown` as a whole or not at all, has a value in every valuation, and divides by zero only where
one of some parts does. -/
def Exact (e : SymExpr) (parts : List SymExpr) (value : Valuation → Int) : Prop :=
  e = unknown ∨ e.Whole ∧ ∀ v, evalIn v e = value v ∧ ((∀ p ∈ parts, p.Defined v) → e.Defined v)

theorem exact_of_known {value : Valuation → Int} (hwhole : e.isKnown = true → e.Whole)
    (hval : e.isKnown = true → ∀ v, evalIn v e = value v)
    (hdef : e.isKnown = true → ∀ v, (∀ p ∈ es, p.Defined v) → e.Defined v) : Exact e es value := by
  by_cases hk : e.isKnown = true
  · exact Or.inr ⟨hwhole hk, fun v => ⟨hval hk v, hdef hk v⟩⟩
  · exact Or.inl (by simpa [isKnown] using hk)

/-- A result is exact if it has the right value and allows the quotients that its parts allow. -/
theorem exact_of_built {value : Valuation → Int} (hes : ∀ e ∈ es, e.Whole)
    (hval : e.isKnown = true → ∀ v, evalIn v e = value v)
    (hbuilt : ∀ ok, (∀ p ∈ es, p.Built ok) → e.isKnown = true → e.Built ok) : Exact e es value :=
  exact_of_known (hbuilt _ hes) hval fun hk _ hparts => hbuilt _ hparts hk

/-- **The constructors are exact.** Of parts in which nothing is unknown, every constructor makes an expression that is exact
for its operation on the parts' integers, and no chain of calls is endless. -/
theorem constructors_exact :
    (∀ es, (∀ e ∈ es, Whole e) → Exact (sum es) es (fun v => (es.map (evalIn v)).sum) ∧
      Exact (product es) es fun v => (es.map (evalIn v)).prod) ∧
    (∀ a b, Whole a → Whole b → Exact (plus a b) [a, b] (fun v => evalIn v a + evalIn v b) ∧
      Exact (minus a b) [a, b] (fun v => evalIn v a - evalIn v b) ∧
      Exact (times a b) [a, b] (fun v => evalIn v a * evalIn v b) ∧
      ∀ h, Exact (recurrence a b h) [a, b] fun v => evalIn v a + v.rounds h * evalIn v b) ∧
    (∀ e, Whole e → Exact (negate e) [e] (fun v => -evalIn v e) ∧
      ∀ n ≠ 0, Exact (quotient e (const n)) [e] fun v => evalIn v e / n.toInt) ∧
    WellFounded fun x y : Call => Call.Makes y x := by
  refine ⟨fun es hes => ⟨?_, ?_⟩, fun a b ha hb => ⟨?_, ?_, ?_, fun h => ?_⟩, fun e he => ⟨?_, fun n hn => ?_⟩,
    Call.makes_wellFounded⟩
  · exact exact_of_built hes (fun hk => (sum_exactIn hk).2.1) fun ok => built_sum
  · exact exact_of_built hes (fun hk => (product_exactIn hk).2.1) fun ok => built_product
  · exact exact_of_built (by simp [ha, hb]) (fun hk => (plus_exactIn hk).2.2.1) fun ok => built_sum
  · refine exact_of_built (by simp [ha, hb]) (fun hk => (minus_exactIn hk).2.2.1) fun ok hes hk => ?_
    have hneg : Built ok b.negate := built_negate (hes b (by simp)) (plus_exactIn hk).2.1
    exact built_sum (by simpa [hneg] using hes a (by simp)) hk
  · exact exact_of_built (by simp [ha, hb]) (fun hk => (times_exactIn hk).2.2.1) fun ok => built_product
  · refine exact_of_built (by simp [ha, hb]) (fun hk => (recurrence_exactIn hk).2.2.1) fun ok hes hk => ?_
    exact built_recurrence (hes a (by simp)) (hes b (by simp)) hk
  · refine exact_of_built (by simp [he]) (fun hk => (negate_exactIn hk).2.1) fun ok hes hk => ?_
    exact built_negate (hes e (by simp)) hk
  · have hne : n.toInt ≠ 0 := fun h => hn (Int64.toInt_inj.mp h)
    refine exact_of_known (built_quotient he (built_const n) trivial) (fun hk => (quotient_exactIn hk).2.2) fun hk v hes => ?_
    exact built_quotient (hes e (by simp)) (built_const n) hne hk

/-- A sum with sums and products inside that no constructor made, and a quotient in a step. -/
def rawTree : SymExpr :=
  add [mul [const 2, mul [const 3]], add [leaf 0, const 1], recur (leaf 1) (quot (leaf 2) (leaf 3)) 0]

theorem rawTree_exact :
    rawTree.Whole ∧
      rawTree.minus (leaf 0) = recur (add [const 1, leaf 1, mul [const 2, const 3]]) (quot (leaf 2) (leaf 3)) 0 ∧
      Exact (rawTree.minus (leaf 0)) [rawTree, leaf 0] fun v => evalIn v rawTree - evalIn v (leaf 0) := by
  have hwhole : rawTree.Whole := by simp [Whole, rawTree, Built, BuiltAll]
  exact ⟨hwhole, by decide +kernel, (constructors_exact.2.1 rawTree (leaf 0) hwhole trivial).2.1⟩

end SymExpr

end SsaFusion
