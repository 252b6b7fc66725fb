import SsaFusion.Proofs.Symbolic.Linear

/-!
# Affine expressions

An expression that the constructors make of constants and values by adding, by multiplying with constants and as a recurrence
over one header is in normal form: a linear form over values (`Plain`), or a recurrence whose start and step are such forms
and whose step is not zero (`Normal`). A linear form is determined by its integers, since its constant is the integer at zero
and its coefficients are read off at the unit assignments (`plain_ext`); for a recurrence the rounds zero and one are enough.
So for affine expressions to be equal as trees is to have equal integers (`normal_ext`).
-/

namespace SsaFusion

namespace SymExpr

/-! ## Linear forms over values -/

namespace Linear

/-- The bases of a linear form are values, each of them once. -/
structure OfLeaves (l : Linear) : Prop where
  leaves : ∀ x ∈ l.coefficients.entries, ∃ v, x.1 = leaf v
  once : (l.coefficients.entries.map Prod.fst).Nodup

/-- The coefficient of a value. -/
def coefficient (l : Linear) (x : ValueId) : Word := (l.coefficients.get? (leaf x)).getD 0

variable {l l' : Linear}

theorem ofLeaves_constant (n : Word) : OfLeaves { constant := n } where
  leaves _ hx := absurd hx List.not_mem_nil
  once := List.nodup_nil

theorem OfLeaves.value_congr (hl : l.OfLeaves) {v v' : Valuation} (hv : v.value = v'.value) : l.value v = l.value v' := by
  unfold value
  congr 2
  refine List.map_congr_left fun x hx => ?_
  obtain ⟨y, hy⟩ := hl.leaves x hx
  rw [hy, evalIn, evalIn, hv]

theorem OfLeaves.value_zero (hl : l.OfLeaves) (rounds : BlockId → Int) : l.value ⟨0, rounds⟩ = l.constant.toInt := by
  have hsum : (l.coefficients.entries.map fun x => x.2.toInt * evalIn ⟨0, rounds⟩ x.1) =
      l.coefficients.entries.map fun _ => 0 := by
    refine List.map_congr_left fun x hx => ?_
    obtain ⟨y, hy⟩ := hl.leaves x hx
    simp [hy, evalIn]
  simp [value, hsum]

/-- At the assignment of one to a single value, a linear form shows the coefficient of that value. -/
theorem OfLeaves.value_single (hl : l.OfLeaves) (x : ValueId) (rounds : BlockId → Int) :
    l.value ⟨Pi.single x 1, rounds⟩ = l.constant.toInt + (l.coefficient x).toInt := by
  obtain ⟨hleaves, honce⟩ := hl
  unfold value coefficient Table.get?
  generalize l.coefficients.entries = es at hleaves honce
  congr 1
  induction es with
  | nil => rfl
  | cons e rest ih =>
    obtain ⟨k, c⟩ := e
    rw [List.map_cons, List.nodup_cons] at honce
    rw [List.forall_mem_cons] at hleaves
    obtain ⟨y, hy⟩ := hleaves.1
    rw [List.map_cons, List.sum_cons, ih hleaves.2 honce.2, Table.lookup]
    simp only at hy honce
    subst hy
    by_cases hxy : y = x
    · subst hxy
      simp [evalIn, Table.lookup_eq_none honce.1]
    · simp [evalIn, hxy]

/-- The canonical sum of a linear form over values depends on its constant and the coefficients of values only. -/
theorem OfLeaves.toExpr_congr (hl : l.OfLeaves) (hl' : l'.OfLeaves) (hconst : l.constant = l'.constant)
    (hcoeff : ∀ x, l.coefficient x = l'.coefficient x) : l.toExpr = l'.toExpr := by
  have hleaf : ∀ {l : Linear} {b : SymExpr}, l.OfLeaves → (¬∃ v, b = leaf v) → l.part (some b) = 0 := by
    intro l b hl hb
    by_contra hne
    exact hb (hl.leaves _ (mem_of_part hl.once hne))
  refine Linear.toExpr_congr hl.once hl'.once fun k => ?_
  cases k with
  | none => exact hconst
  | some b =>
    by_cases hb : ∃ v, b = leaf v
    · obtain ⟨v, rfl⟩ := hb
      exact hcoeff v
    · rw [hleaf hl hb, hleaf hl' hb]

/-- A linear form is determined by its integers. -/
theorem OfLeaves.toExpr_ext (hl : l.OfLeaves) (hl' : l'.OfLeaves) (h : ∀ v, l.value v = l'.value v) : l.toExpr = l'.toExpr := by
  have hconst : l.constant.toInt = l'.constant.toInt := by
    rw [← hl.value_zero 0, h, hl'.value_zero]
  refine hl.toExpr_congr hl' (Int64.toInt_inj.mp hconst) fun x => Int64.toInt_inj.mp ?_
  have hx := h ⟨Pi.single x 1, 0⟩
  rw [hl.value_single, hl'.value_single, hconst] at hx
  exact Int.add_left_cancel hx

end Linear

/-- The canonical sum of a linear form over values. -/
def Plain (e : SymExpr) : Prop := ∃ l : Linear, l.OfLeaves ∧ e = l.toExpr

variable {e e' : SymExpr} {es flat : List SymExpr} {h : BlockId}

theorem Plain.evalIn_congr (he : Plain e) {v v' : Valuation} (hv : v.value = v'.value) : evalIn v e = evalIn v' e := by
  obtain ⟨l, hl, rfl⟩ := he
  rw [l.toExpr_exact.1, l.toExpr_exact.1, hl.value_congr hv]

theorem plain_ext (he : Plain e) (he' : Plain e') (hv : ∀ v, evalIn v e = evalIn v e') : e = e' := by
  obtain ⟨l, hl, rfl⟩ := he
  obtain ⟨l', hl', rfl⟩ := he'
  refine hl.toExpr_ext hl' fun v => ?_
  rw [← l.toExpr_exact.1, hv, l'.toExpr_exact.1]

/-! ## Terms -/

/-- A constant, a value, or a value with a coefficient. -/
inductive IsTerm : SymExpr → Prop
  | const (n : Word) : IsTerm (const n)
  | leaf (v : ValueId) : IsTerm (leaf v)
  | mul {c : Word} (h0 : c ≠ 0) (h1 : c ≠ 1) (v : ValueId) : IsTerm (mul [const c, leaf v])

theorem isTerm_scale {c : Word} (h0 : c ≠ 0) (v : ValueId) : IsTerm (scale c (leaf v)) := by
  unfold scale
  split
  · exact .leaf v
  · exact .mul h0 ‹_› v

theorem plain_const (n : Word) : Plain (const n) :=
  ⟨{ constant := n }, Linear.ofLeaves_constant n, (Linear.toExpr_constant n).symm⟩

theorem plain_scale {c : Word} (h0 : c ≠ 0) (v : ValueId) : Plain (scale c (leaf v)) := by
  refine ⟨{ coefficients := ⟨[(leaf v, c)]⟩ }, ⟨fun x hx => ?_, List.nodup_singleton _⟩, (Linear.toExpr_single h0 _).symm⟩
  exact ⟨v, by rw [List.mem_singleton.mp hx]⟩

theorem IsTerm.plain (he : IsTerm e) : Plain e := by
  cases he with
  | const n => exact plain_const n
  | leaf v => exact plain_scale (c := 1) (by decide) v
  | @mul c h0 h1 v => simpa [scale, h1] using plain_scale h0 v

theorem Linear.OfLeaves.isTerm {l : Linear} (hl : l.OfLeaves) : ∀ e ∈ l.terms, IsTerm e := by
  intro e he
  rcases Linear.mem_terms he with ⟨x, hx, hne, rfl⟩ | rfl
  · obtain ⟨v, hv⟩ := hl.leaves x hx
    rw [hv]
    exact isTerm_scale hne v
  · exact .const _

/-- A linear form is one term or a sum of terms. -/
theorem Plain.isTerm_or (he : Plain e) : IsTerm e ∨ ∃ ts, e = add ts ∧ ∀ t ∈ ts, IsTerm t := by
  obtain ⟨l, hl, rfl⟩ := he
  have hterms := hl.isTerm
  unfold Linear.toExpr
  split
  · exact Or.inl (.const 0)
  · rename_i e hone
    exact Or.inl (hterms e (hone ▸ List.mem_singleton_self e))
  · exact Or.inr ⟨_, rfl, hterms⟩

theorem Plain.isTerm_of_mem_summands (he : Plain e) {t : SymExpr} (ht : t ∈ e.summands) : IsTerm t := by
  rcases he.isTerm_or with hterm | ⟨ts, rfl, hts⟩
  · have hself : e.summands = [e] := by cases hterm <;> rfl
    rw [hself, List.mem_singleton] at ht
    exact ht ▸ hterm
  · exact hts t ht

theorem IsTerm.leaf_of_slot (he : IsTerm e) {b : SymExpr} (hs : e.slot = some b) : ∃ v, b = .leaf v := by
  cases he with
  | const n => cases hs
  | leaf v | mul _ _ v =>
    cases hs
    exact ⟨v, rfl⟩

theorem Linear.OfLeaves.plus? {l l' : Linear} (hl : l.OfLeaves) (he : IsTerm e) (h : l.plus? e = some l') : l'.OfLeaves where
  leaves x hx := (Linear.mem_plus? h hx).elim (hl.leaves x) he.leaf_of_slot
  once := Linear.once_plus? hl.once h

/-! ## Sums -/

theorem IsTerm.recur? (he : IsTerm e) : e.recur? = none := by cases he <;> rfl

/-- A known sum of terms is a linear form. -/
theorem plain_collect? (hflat : ∀ t ∈ flat, IsTerm t)
    (hk : (((Linear.collect? flat).map Linear.toExpr).getD unknown).isKnown = true) :
    Plain (((Linear.collect? flat).map Linear.toExpr).getD unknown) := by
  cases hl : Linear.collect? flat with
  | none =>
    rw [hl] at hk
    cases hk
  | some l =>
    refine ⟨l, Linear.foldlM_induction (Linear.ofLeaves_constant 0) (fun e he l l' hl h => ?_) hl, rfl⟩
    exact hl.plus? (hflat e he) h

theorem plain_sum (hes : ∀ e ∈ es, Plain e) (hk : (sum es).isKnown = true) : Plain (sum es) := by
  have hflat : ∀ flat, openSums es = some flat → ∀ t ∈ flat, IsTerm t := by
    intro flat ho t ht
    obtain ⟨e, he, ht⟩ := exists_mem_summands ho ht
    exact (hes e he).isTerm_of_mem_summands ht
  fun_induction sum es with
  | case1 | case4 => cases hk
  | case2 es flat ho hr => exact plain_collect? (hflat flat ho) hk
  | case3 es flat ho x more hr =>
    have hmem : x ∈ recurs flat := hr ▸ List.mem_cons_self ..
    cases (hflat flat ho _ (mem_of_mem_recurs hmem)).recur?

/-! ## Recurrences -/

/-- A linear form, or a recurrence over a header that starts with and grows by linear forms. -/
inductive Normal (h : BlockId) : SymExpr → Prop
  | plain {e : SymExpr} (he : Plain e) : Normal h e
  | recur {a s : SymExpr} (ha : Plain a) (hs : Plain s) (hne : s ≠ const 0) : Normal h (recur a s h)

theorem normal_recurrence {a s : SymExpr} (ha : Plain a) (hs : Plain s) (hk : (recurrence a s h).isKnown = true) :
    Normal h (recurrence a s h) := by
  unfold recurrence at hk ⊢
  split at hk
  · cases hk
  · rename_i hparts
    rw [if_neg hparts]
    split
    · exact .plain ha
    · exact .recur ha hs ‹_›

/-- What a normal form adds to an opened sum. -/
theorem Normal.of_mem_summands (he : Normal h e) {t : SymExpr} (ht : t ∈ e.summands) :
    IsTerm t ∨ ∃ a s, t = SymExpr.recur a s h ∧ Plain a ∧ Plain s := by
  cases he with
  | plain he => exact Or.inl (he.isTerm_of_mem_summands ht)
  | @recur a s ha hs => exact Or.inr ⟨a, s, List.mem_singleton.mp ht, ha, hs⟩

theorem normal_sum (hes : ∀ e ∈ es, Normal h e) (hk : (sum es).isKnown = true) : Normal h (sum es) := by
  have hflat : ∀ flat, openSums es = some flat → ∀ t ∈ flat, IsTerm t ∨ ∃ a s, t = recur a s h ∧ Plain a ∧ Plain s := by
    intro flat ho t ht
    obtain ⟨e, he, ht⟩ := exists_mem_summands ho ht
    exact (hes e he).of_mem_summands ht
  fun_induction sum es with
  | case1 | case4 => cases hk
  | case2 es flat ho hr =>
    refine .plain (plain_collect? (fun t ht => (hflat flat ho t ht).resolve_right ?_) hk)
    rintro ⟨a, s, rfl, -⟩
    have hmem : (a, s, h) ∈ recurs flat := List.mem_filterMap.mpr ⟨_, ht, rfl⟩
    rw [hr] at hmem
    cases hmem
  | case3 es flat ho x more hr hall =>
    obtain ⟨hstart, hstep, -⟩ := recurrence_exactIn hk
    have hpart : ∀ y ∈ x :: more, y.2.2 = h ∧ Plain y.1 ∧ Plain y.2.1 := by
      intro y hy
      rcases hflat flat ho _ (mem_of_mem_recurs (hr ▸ hy)) with hterm | ⟨a, s, heq, ha, hs⟩
      · cases hterm.recur?
      · cases heq
        exact ⟨rfl, ha, hs⟩
    have hsteady : ∀ t ∈ steady flat, Plain t := by
      intro t ht
      obtain ⟨ht, hrecur⟩ := List.mem_filter.mp ht
      rcases hflat flat ho t ht with hterm | ⟨a, s, rfl, -⟩
      · exact hterm.plain
      · cases hrecur
    rw [(hpart x (List.mem_cons_self ..)).1] at hk ⊢
    refine normal_recurrence (plain_sum (List.forall_mem_append.mpr ⟨hsteady, ?_⟩) hstart) (plain_sum ?_ hstep) hk
    · exact List.forall_mem_map.mpr fun y hy => (hpart y hy).2.1
    · exact List.forall_mem_map.mpr fun y hy => (hpart y hy).2.2

/-! ## Products with constants -/

/-- The factors are one expression and constants. -/
def Scaled (e : SymExpr) (fs : List SymExpr) : Prop :=
  ∃ before after, fs = before ++ e :: after ∧ ∀ f ∈ before ++ after, f.isConst = true

theorem scaled_const (c : Word) (e : SymExpr) : Scaled e [const c, e] := ⟨[const c], [], rfl, by simp [isConst, const?]⟩

/-- When products are opened, only what comes from the expression is not constant. -/
theorem Scaled.filter_flat {fs : List SymExpr} (hfs : Scaled e fs) (ho : openProducts fs = some flat) :
    flat.filter (!·.isConst) = e.factors.filter (!·.isConst) := by
  have hnil : ∀ cs : List SymExpr, (∀ f ∈ cs, f.isConst = true) → (cs.flatMap factors).filter (!·.isConst) = [] := by
    intro cs hcs
    refine List.filter_eq_nil_iff.mpr fun t ht => ?_
    obtain ⟨f, hf, ht⟩ := List.mem_flatMap.mp ht
    obtain ⟨n, hn⟩ := Option.isSome_iff_exists.mp (hcs f hf)
    rw [eq_const_of_const? hn] at ht
    rw [List.mem_singleton.mp ht]
    simp [isConst, const?]
  obtain ⟨before, after, rfl, hconst⟩ := hfs
  rw [List.forall_mem_append] at hconst
  rw [eq_flatMap_factors ho, List.flatMap_append, List.flatMap_cons, List.filter_append, List.filter_append, hnil before hconst.1,
    hnil after hconst.2, List.nil_append, List.append_nil]

/-- What linear forms leave of products besides constants. -/
inductive Leftover : List SymExpr → Prop
  | nil : Leftover []
  | leaf (v : ValueId) : Leftover [leaf v]
  | add {ts : List SymExpr} (hts : ∀ t ∈ ts, IsTerm t) : Leftover [add ts]

theorem Plain.leftover (he : Plain e) {fs : List SymExpr} (hfs : Scaled e fs) (ho : openProducts fs = some flat) :
    Leftover (flat.filter (!·.isConst)) := by
  rw [hfs.filter_flat ho]
  rcases he.isTerm_or with hterm | ⟨ts, rfl, hts⟩
  · cases hterm with
    | const n => exact .nil
    | leaf v => exact .leaf v
    | mul _ _ v => exact .leaf v
  · exact .add hts

theorem plain_of_leftover {fs : List SymExpr}
    (hrest : ∀ {flat}, openProducts fs = some flat → Leftover (flat.filter (!·.isConst)))
    (hk : (product fs).isKnown = true) : Plain (product fs) := by
  fun_induction product fs with
  | case1 | case2 | case4 => cases hk
  | case3 | case6 => exact plain_const _
  | case5 fs flat ho c hc _ a s k others hs =>
    obtain ⟨-, hmem, -⟩ := splitRecur?_exact hs
    have hleft := hrest ho
    generalize flat.filter (!·.isConst) = rest at hleft hmem
    cases hleft <;> simp at hmem
  | case7 fs flat ho c hc _ _ terms hf ih =>
    obtain ⟨hparts, -, -⟩ := sum_exactIn hk
    have hleft := hrest ho
    rw [hf] at hleft
    cases hleft with
    | add hts =>
      refine plain_sum (List.forall_mem_map.mpr fun t ht => ?_) hk
      exact ih t ((hts t.1 t.2).plain.leftover (scaled_const c t.1)) (hparts _ (List.mem_map_of_mem ht))
  | case8 fs flat ho c hc hne _ e' hadd hf =>
    have hleft := hrest ho
    rw [hf] at hleft
    cases hleft with
    | leaf v => exact plain_scale hne v
    | @add ts => exact absurd rfl (hadd ts)
  | case9 fs flat ho c hc _ _ hnil hadd hone =>
    have hleft := hrest ho
    generalize flat.filter (!·.isConst) = rest at hleft hnil hadd hone
    cases hleft <;> simp_all

/-- A known product of a normal form with constants is in normal form. -/
theorem normal_product {fs : List SymExpr} (hfs : Scaled e fs) (he : Normal h e) (hk : (product fs).isKnown = true) :
    Normal h (product fs) := by
  cases he with
  | plain he => exact .plain (plain_of_leftover (he.leftover hfs) hk)
  | @recur a s ha hs =>
    have hrest : ∀ {flat}, openProducts fs = some flat → flat.filter (!·.isConst) = [SymExpr.recur a s h] := hfs.filter_flat
    fun_induction product fs with
    | case1 | case2 | case4 => cases hk
    | case3 | case6 => exact .plain (plain_const _)
    | case5 fs flat ho c hc _ a' s' k others hsplit =>
      rw [hrest ho] at hsplit
      cases hsplit
      obtain ⟨hstart, hstep, -⟩ := recurrence_exactIn hk
      exact normal_recurrence (plain_of_leftover (ha.leftover (scaled_const c a)) hstart)
        (plain_of_leftover (hs.leftover (scaled_const c s)) hstep) hk
    | case7 fs flat ho c hc _ hsplit | case8 fs flat ho c hc _ hsplit | case9 fs flat ho c hc _ hsplit =>
      rw [hrest ho] at hsplit
      cases hsplit

/-! ## Affine expressions -/

/-- What constructors make of constants and values by adding, by multiplying with constants, and as recurrences over one
header that start with and grow by expressions without recurrences. -/
inductive Affine (h : BlockId) : SymExpr → Prop
  | const (n : Word) : Affine h (const n)
  | leaf (v : ValueId) : Affine h (leaf v)
  | sum {es : List SymExpr} (hes : ∀ e ∈ es, Affine h e) : Affine h (sum es)
  | plus {a b : SymExpr} (ha : Affine h a) (hb : Affine h b) : Affine h (plus a b)
  | minus {a b : SymExpr} (ha : Affine h a) (hb : Affine h b) : Affine h (minus a b)
  | negate {e : SymExpr} (he : Affine h e) : Affine h (negate e)
  | product {e : SymExpr} {fs : List SymExpr} (hfs : Scaled e fs) (he : Affine h e) : Affine h (product fs)
  | recurrence {a s : SymExpr} (ha : Affine h a) (hs : Affine h s) (hafree : ∀ k, .round k ∉ a.atoms)
    (hsfree : ∀ k, .round k ∉ s.atoms) : Affine h (recurrence a s h)

theorem Normal.plain_of_free (he : Normal h e) (hfree : ∀ k, .round k ∉ e.atoms) : Plain e := by
  cases he with
  | plain he => exact he
  | recur => exact absurd (List.mem_cons_self ..) (hfree h)

/-- Known affine expressions are in normal form. -/
theorem Affine.normal (he : Affine h e) (hk : e.isKnown = true) : Normal h e := by
  induction he with
  | const n => exact .plain (plain_const n)
  | leaf v => exact .plain (IsTerm.leaf v).plain
  | sum _ ih => exact normal_sum (fun e he => ih e he ((sum_exactIn hk).1 e he)) hk
  | plus _ _ iha ihb =>
    obtain ⟨ha, hb, -⟩ := plus_exactIn hk
    exact normal_sum (by simp [iha ha, ihb hb]) hk
  | @minus a b _ _ iha ihb =>
    obtain ⟨ha, hneg, -⟩ := plus_exactIn hk
    have hb : Normal h b.negate := normal_product (scaled_const (-1) b) (ihb (negate_exactIn hneg).1) hneg
    exact normal_sum (by simp [iha ha, hb]) hk
  | @negate e _ ih => exact normal_product (scaled_const (-1) e) (ih (negate_exactIn hk).1) hk
  | @product e fs hfs _ ih =>
    have hmem : e ∈ fs := by
      obtain ⟨before, after, rfl, -⟩ := hfs
      simp
    exact normal_product hfs (ih ((product_exactIn hk).1 e hmem)) hk
  | recurrence _ _ hafree hsfree iha ihs =>
    obtain ⟨ha, hs, -⟩ := recurrence_exactIn hk
    exact normal_recurrence ((iha ha).plain_of_free hafree) ((ihs hs).plain_of_free hsfree) hk

/-! ## Equal integers -/

theorem Plain.isKnown (he : Plain e) : e.isKnown = true := by
  rcases he.isTerm_or with hterm | ⟨ts, rfl, -⟩
  · cases hterm <;> rfl
  · rfl

/-- Linear forms do not depend on the rounds that are counted. -/
theorem Plain.eval_eq (he : Plain e) (v : Valuation) (rounds : BlockId → Nat) : eval ⟨v.value, rounds⟩ e = evalIn v e :=
  he.evalIn_congr rfl

/-- A normal form has a start and a step, and the step is zero for a linear form. -/
theorem Normal.exists_recurrence (he : Normal h e) : ∃ a s, Plain a ∧ Plain s ∧ e = recurrence a s h := by
  cases he with
  | plain he => exact ⟨e, SymExpr.const 0, he, plain_const 0, by simp [recurrence, SymExpr.isKnown]⟩
  | @recur a s ha hs hne => exact ⟨a, s, ha, hs, by simp [recurrence, ha.isKnown, hs.isKnown, hne]⟩

theorem eval_recurrence {a s : SymExpr} (ha : Plain a) (hs : Plain s) (r : Reading) :
    eval r (recurrence a s h) = eval r a + r.rounds h * eval r s := by
  rw [recurrence, if_neg (by simp [ha.isKnown, hs.isKnown])]
  split
  · rename_i hzero
    simp [hzero, eval]
  · rfl

/-- Normal forms with equal integers in every reading are equal: their starts agree in round zero, and then their steps in
round one. -/
theorem normal_ext (he : Normal h e) (he' : Normal h e') (hr : ∀ r, eval r e = eval r e') : e = e' := by
  obtain ⟨a, s, ha, hs, rfl⟩ := he.exists_recurrence
  obtain ⟨a', s', ha', hs', rfl⟩ := he'.exists_recurrence
  have hstart : a = a' := by
    refine plain_ext ha ha' fun v => ?_
    have h0 := hr ⟨v.value, fun _ => 0⟩
    rw [eval_recurrence ha hs, eval_recurrence ha' hs'] at h0
    simpa [ha.eval_eq, ha'.eval_eq] using h0
  subst hstart
  have hstep : s = s' := by
    refine plain_ext hs hs' fun v => ?_
    have h1 := hr ⟨v.value, fun _ => 1⟩
    rw [eval_recurrence ha hs, eval_recurrence ha hs'] at h1
    simpa [hs.eval_eq, hs'.eval_eq] using h1
  rw [hstep]

/-- **Equality of trees decides affine equality.** Two known affine expressions over one header are the same tree exactly when
they have the same integer whatever integers the values have and however often the header was reached. -/
theorem affine_eq_iff (he : Affine h e) (he' : Affine h e') (hk : e.isKnown = true) (hk' : e'.isKnown = true) :
    e = e' ↔ ∀ r, eval r e = eval r e' :=
  ⟨fun heq _ => congrArg (eval _) heq, normal_ext (he.normal hk) (he'.normal hk')⟩

/-- Twice the recurrence that starts with a value and grows by one, less the value. -/
def doubledCount : SymExpr := ((const 2).times (recurrence (leaf 0) (const 1) 3)).minus (leaf 0)

theorem doubledCount_eq_iff :
    Affine 3 doubledCount ∧ doubledCount.isKnown = true ∧ doubledCount = recurrence (leaf 0) (const 2) 3 ∧
      (doubledCount = recurrence (leaf 0) (const 2) 3 ↔ ∀ r, eval r doubledCount = eval r (recurrence (leaf 0) (const 2) 3)) := by
  have hcount : ∀ n, Affine 3 (recurrence (leaf 0) (const n) 3) := fun n =>
    .recurrence (.leaf 0) (.const n) (by simp [atoms]) (by simp)
  have haffine : Affine 3 doubledCount := .minus (.product (scaled_const 2 _) (hcount 1)) (.leaf 0)
  have hknown : doubledCount.isKnown = true := by decide +kernel
  exact ⟨haffine, hknown, by decide +kernel, affine_eq_iff haffine (hcount 2) hknown (by decide +kernel)⟩

end SymExpr

end SsaFusion
