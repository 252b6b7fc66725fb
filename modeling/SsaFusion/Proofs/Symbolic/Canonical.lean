import SsaFusion.Proofs.Symbolic.Linear

/-!
# Canonical expressions

What the constructors build is in one of three forms (`Canonical`): unknown, a recurrence that grows, or a sum of terms over
distinct bases, where a base is a leaf, a quotient, or a sorted product of at least two factors. The constructors keep
this form when they are given it (`canonical_sum`, `canonical_product`), so everything they build has it
(`Constructed.canonical`).
-/

namespace SsaFusion

namespace SymExpr

variable {a s e x y b f : SymExpr} {h : BlockId} {es flat rest : List SymExpr} {l l' : Linear} {c n : Word}

/-! ## Opened sums and products -/

theorem openSums_eq (hk : unknown ∉ es) : openSums es = some (es.flatMap summands) := by
  fun_induction openSums es with
  | case1 => rfl
  | case2 => exact absurd (List.mem_cons_self ..) hk
  | case3 ts rest ih => rw [ih fun hmem => hk (List.mem_cons_of_mem _ hmem), List.flatMap_cons, summands, Option.map_some]
  | case4 e rest _ hadd ih =>
    rw [ih fun hmem => hk (List.mem_cons_of_mem _ hmem), List.flatMap_cons, summands.eq_2 e hadd, Option.map_some,
      List.singleton_append]

theorem openProducts_eq (hk : unknown ∉ es) : openProducts es = some (es.flatMap factors) := by
  fun_induction openProducts es with
  | case1 => rfl
  | case2 => exact absurd (List.mem_cons_self ..) hk
  | case3 fs rest ih => rw [ih fun hmem => hk (List.mem_cons_of_mem _ hmem), List.flatMap_cons, factors, Option.map_some]
  | case4 e rest _ hmul ih =>
    rw [ih fun hmem => hk (List.mem_cons_of_mem _ hmem), List.flatMap_cons, factors.eq_2 e hmul, Option.map_some,
      List.singleton_append]

theorem sum_of_unknown (hk : unknown ∈ es) : sum es = unknown := by
  fun_cases sum es with
  | case1 => rfl
  | case2 flat ho | case3 flat ho | case4 flat ho => exact absurd ((openSums_exact ho).1 unknown hk) (by decide)

theorem product_of_unknown (hk : unknown ∈ es) : product es = unknown := by
  rw [product]
  split
  · rfl
  · rename_i flat ho
    exact absurd ((openProducts_exact ho).1 unknown hk) (by decide)

/-- A sum adds up the parts of its recurrences, or its terms if there is none. -/
theorem sum_eq (hk : unknown ∉ es) :
    sum es = match recurs (es.flatMap summands) with
      | [] => ((Linear.collect? (es.flatMap summands)).map Linear.toExpr).getD unknown
      | r :: more =>
        if more.all (·.2.2 == r.2.2) then
          recurrence (sum (steady (es.flatMap summands) ++ (r :: more).map (·.1))) (sum ((r :: more).map (·.2.1))) r.2.2
        else unknown := by
  fun_cases sum es with
  | case1 ho => cases (openSums_eq hk).symm.trans ho
  | case2 flat ho hr =>
    obtain rfl := eq_flatMap_summands ho
    rw [hr]
  | case3 flat ho r more hr hall =>
    obtain rfl := eq_flatMap_summands ho
    simp only [hr, hall, if_true]
  | case4 flat ho r more hr hall =>
    obtain rfl := eq_flatMap_summands ho
    simp only [hr, hall]
    rfl

/-- The canonical product of a constant and factors that are neither constants nor products. -/
def productOf (c : Word) (rest : List SymExpr) : SymExpr :=
  if c = 0 then const 0
  else
    match splitRecur? rest with
    | some ((a, s, h), others) =>
      if others.any isRecur then unknown
      else recurrence (product (others ++ [const c, a])) (product (others ++ [const c, s])) h
    | none =>
      match rest with
      | [] => const c
      | [add terms] => sum (terms.map fun t => product [const c, t])
      | [e] => scale c e
      | es => scale c (mul (sortBy le es))

/-- A product folds its constants and multiplies the rest. -/
theorem product_eq (hk : unknown ∉ es) :
    product es = ((constantFactor? (es.flatMap factors)).map fun c =>
      productOf c ((es.flatMap factors).filter (!·.isConst))).getD unknown := by
  fun_cases product es with
  | case1 ho => cases (openProducts_eq hk).symm.trans ho
  | case2 flat ho hc =>
    obtain rfl := eq_flatMap_factors ho
    rw [hc]
    rfl
  | case3 flat ho hc =>
    obtain rfl := eq_flatMap_factors ho
    rw [hc]
    rfl
  | case4 flat ho c hc hne a s h others hs hany =>
    obtain rfl := eq_flatMap_factors ho
    simp only [hc, Option.map_some, Option.getD_some, productOf, if_neg hne, hs, hany, if_true]
  | case5 flat ho c hc hne a s h others hs hany =>
    obtain rfl := eq_flatMap_factors ho
    simp only [hc, Option.map_some, Option.getD_some, productOf, if_neg hne, hs, if_neg hany]
  | case6 flat ho c hc hne hs hf =>
    obtain rfl := eq_flatMap_factors ho
    rw [hf] at hs
    simp only [hc, Option.map_some, Option.getD_some, productOf, if_neg hne, hf, hs]
  | case7 flat ho c hc hne hs terms hf =>
    obtain rfl := eq_flatMap_factors ho
    rw [hf] at hs
    simp only [hc, Option.map_some, Option.getD_some, productOf, if_neg hne, hf, hs]
    rw [List.attach_map_val (f := fun t => product [const c, t])]
  | case8 flat ho c hc hne hs e hadd hf =>
    obtain rfl := eq_flatMap_factors ho
    rw [hf] at hs
    simp only [hc, Option.map_some, Option.getD_some, productOf, if_neg hne, hf, hs]
  | case9 flat ho c hc hne hs hnil hadd hone =>
    obtain rfl := eq_flatMap_factors ho
    simp only [hc, Option.map_some, Option.getD_some, productOf, if_neg hne, hs]

theorem splitRecur?_steady (hes : ∀ e ∈ es, e.isRecur = false) : splitRecur? es = none := by
  fun_induction splitRecur? es with
  | case1 => rfl
  | case2 => cases hes _ (List.mem_cons_self ..)
  | case3 e rest _ ih => rw [ih (List.forall_mem_cons.mp hes).2, Option.map_none]

theorem splitRecur?_last (hes : ∀ e ∈ es, e.isRecur = false) : splitRecur? (es ++ [recur a s h]) = some ((a, s, h), es) := by
  induction es with
  | nil => rfl
  | cons e rest ih =>
    rw [List.forall_mem_cons] at hes
    rw [List.cons_append, splitRecur?, ih hes.2]
    · rfl
    · rintro a s h rfl
      cases hes.1

/-- Factors without a recurrence are multiplied in any order. -/
theorem productOf_perm {rest' : List SymExpr} (hperm : rest.Perm rest') (hrest : ∀ f ∈ rest, f.isRecur = false) :
    productOf c rest = productOf c rest' := by
  have hrest' : ∀ f ∈ rest', f.isRecur = false := fun f hf => hrest f (hperm.mem_iff.mpr hf)
  unfold productOf
  rw [splitRecur?_steady hrest, splitRecur?_steady hrest']
  rcases rest with - | ⟨e, - | ⟨e', more⟩⟩
  · rw [hperm.symm.eq_nil]
  · rw [List.singleton_perm.mp hperm]
  · rcases rest' with - | ⟨d, - | ⟨d', more'⟩⟩
    · cases hperm.eq_nil
    · cases List.perm_singleton.mp hperm
    · simp only [sortBy_eq_of_perm hperm]

/-! ## The canonical form -/

/-- A factor of a product apart from its constant: nothing that is folded, opened or pulled out. -/
inductive IsFactor : SymExpr → Prop
  | leaf (v : ValueId) : IsFactor (leaf v)
  | quot (a b : SymExpr) : IsFactor (quot a b)
  | add (ts : List SymExpr) : IsFactor (add ts)

/-- What a sum has a coefficient for. It is not a sum, since a coefficient goes into a sum. -/
inductive IsBase : SymExpr → Prop
  | leaf (v : ValueId) : IsBase (leaf v)
  | quot (a b : SymExpr) : IsBase (quot a b)
  | mul {fs : List SymExpr} (two : 2 ≤ fs.length) (sorted : fs.Pairwise fun a b => le a b = true)
      (factors : ∀ f ∈ fs, IsFactor f) : IsBase (mul fs)

/-- The canonical form of expressions. -/
inductive Canonical : SymExpr → Prop
  | unknown : Canonical unknown
  | linear {l : Linear} (once : l.Once) (bases : ∀ x ∈ l.coefficients.entries, IsBase x.1)
      (factors : ∀ x ∈ l.coefficients.entries, ∀ fs, x.1 = mul fs → ∀ f ∈ fs, Canonical f) : Canonical l.toExpr
  | recur {a s : SymExpr} {h : BlockId} (start : Canonical a) (step : Canonical s) (knownStart : a ≠ .unknown)
      (knownStep : s ≠ .unknown) (grows : s ≠ const 0) : Canonical (recur a s h)

/-- A base with canonical factors. -/
structure CanonicalBase (b : SymExpr) : Prop where
  shape : IsBase b
  factors : ∀ fs, b = mul fs → ∀ f ∈ fs, Canonical f

/-- A linear form with a coefficient for each of its bases. -/
structure Linear.Proper (l : Linear) : Prop where
  once : l.Once
  bases : ∀ x ∈ l.coefficients.entries, CanonicalBase x.1

theorem Linear.Proper.canonical (hl : l.Proper) : Canonical l.toExpr :=
  .linear hl.once (fun x hx => (hl.bases x hx).shape) fun x hx => (hl.bases x hx).factors

/-- The canonical form by its cases, a linear form with all that is known of it. -/
theorem Canonical.induct {motive : (x : SymExpr) → Canonical x → Prop} (unknown : motive _ .unknown)
    (linear : ∀ {l : Linear} (hl : l.Proper), motive l.toExpr hl.canonical)
    (recur : ∀ {a s : SymExpr} {h : BlockId} (start : Canonical a) (step : Canonical s) (knownStart : a ≠ .unknown)
      (knownStep : s ≠ .unknown) (grows : s ≠ const 0), motive a start → motive s step →
      motive (.recur a s h) (.recur start step knownStart knownStep grows))
    {x : SymExpr} (hx : Canonical x) : motive x hx := by
  induction hx with
  | unknown => exact unknown
  | linear once bases hfs => exact linear ⟨once, fun x hx => ⟨bases x hx, hfs x hx⟩⟩
  | recur start step knownStart knownStep grows ihStart ihStep =>
    exact recur start step knownStart knownStep grows ihStart ihStep

/-- A term of a canonical sum. -/
inductive IsSummand : SymExpr → Prop
  | const (n : Word) : IsSummand (const n)
  | scale {c : Word} {b : SymExpr} (ne : c ≠ 0) (base : CanonicalBase b) : IsSummand (scale c b)

/-! ## Factors -/

theorem IsFactor.const? (hf : IsFactor f) : f.const? = none := by cases hf <;> rfl

theorem IsFactor.isRecur (hf : IsFactor f) : f.isRecur = false := by cases hf <;> rfl

theorem IsBase.isFactor_of_mem (hb : IsBase b) (hf : f ∈ b.factors) : IsFactor f := by
  cases hb with
  | leaf v => exact List.mem_singleton.mp hf ▸ .leaf v
  | quot a b => exact List.mem_singleton.mp hf ▸ .quot a b
  | mul _ _ hfs => exact hfs f hf

/-- A scaled base is opened into its coefficient, unless that is one, and the factors of the base. -/
theorem IsBase.factors_scale (hb : IsBase b) (c : Word) :
    (scale c b).factors = (if c = 1 then [] else [const c]) ++ b.factors := by
  unfold scale
  split
  · rfl
  · cases hb <;> rfl

theorem filterMap_const? (hfs : ∀ f ∈ es, IsFactor f) : es.filterMap SymExpr.const? = [] :=
  List.filterMap_eq_nil_iff.mpr fun f hf => (hfs f hf).const?

theorem IsBase.constants_scale (hb : IsBase b) (c : Word) :
    (scale c b).factors.filterMap SymExpr.const? = if c = 1 then [] else [c] := by
  rw [hb.factors_scale, List.filterMap_append, filterMap_const? fun f => hb.isFactor_of_mem, List.append_nil]
  split <;> rfl

theorem IsBase.rest_scale (hb : IsBase b) (c : Word) : (scale c b).factors.filter (!·.isConst) = b.factors := by
  have hrest : b.factors.filter (!·.isConst) = b.factors :=
    List.filter_eq_self.mpr fun f hf => by rw [isConst, (hb.isFactor_of_mem hf).const?]; rfl
  rw [hb.factors_scale, List.filter_append, hrest]
  split <;> rfl

/-! ## Terms -/

theorem IsBase.splitCoefficient_scale (hb : IsBase b) (c : Word) : (scale c b).splitCoefficient = (c, b) := by
  unfold scale
  split
  · rename_i hc
    subst hc
    cases hb with
    | leaf | quot => rfl
    | @mul fs two _ hfs =>
      obtain - | ⟨f, rest⟩ := fs
      · cases two
      · cases hfs f (List.mem_cons_self ..) <;> rfl
  · cases hb with
    | leaf | quot => rfl
    | @mul fs two =>
      obtain - | ⟨f, - | ⟨g, rest⟩⟩ := fs
      · cases two
      · cases two with | step two => cases two
      · rfl

/-- A scaled base is a base or a product. -/
theorem IsBase.scale_cases (hb : IsBase b) (c : Word) :
    (∃ v, scale c b = .leaf v) ∨ (∃ a d, scale c b = .quot a d) ∨ ∃ fs, scale c b = .mul fs := by
  unfold scale
  split
  · cases hb with
    | leaf v => exact Or.inl ⟨v, rfl⟩
    | quot a d => exact Or.inr (Or.inl ⟨a, d, rfl⟩)
    | mul => exact Or.inr (Or.inr ⟨_, rfl⟩)
  · cases hb <;> exact Or.inr (Or.inr ⟨_, rfl⟩)

theorem IsBase.not_const (hb : IsBase b) (c n : Word) : scale c b ≠ const n := by
  rcases hb.scale_cases c with ⟨v, h⟩ | ⟨a, d, h⟩ | ⟨fs, h⟩ <;> rw [h] <;> intro heq <;> cases heq

theorem IsBase.slot_scale (hb : IsBase b) (c : Word) : (scale c b).slot = some b := by
  rw [slot.eq_2 _ fun n h => hb.not_const c n h, hb.splitCoefficient_scale]

theorem IsBase.amount_scale (hb : IsBase b) (c : Word) : (scale c b).amount = c := by
  rw [amount.eq_2 _ fun n h => hb.not_const c n h, hb.splitCoefficient_scale]

namespace IsSummand

/-- Terms are no sums, no recurrences and known. -/
theorem plain (ht : IsSummand e) : e.summands = [e] ∧ e.recur? = none ∧ e ≠ unknown := by
  cases ht with
  | const n => exact ⟨rfl, rfl, fun h => (by cases h)⟩
  | @scale c b _ hb =>
    rcases hb.shape.scale_cases c with ⟨v, h⟩ | ⟨a, d, h⟩ | ⟨fs, h⟩ <;> rw [h] <;>
      exact ⟨rfl, rfl, fun heq => (by cases heq)⟩

theorem base_of_slot (ht : IsSummand e) (hs : e.slot = some b) : CanonicalBase b := by
  cases ht with
  | const => cases hs
  | @scale c _ _ hb =>
    rw [hb.shape.slot_scale] at hs
    cases hs
    exact hb

theorem canonical (ht : IsSummand e) : Canonical e := by
  cases ht with
  | const n => exact Linear.toExpr_constant n ▸ Linear.Proper.canonical ⟨List.nodup_nil, fun x hx => (by cases hx)⟩
  | @scale c b hc hb =>
    refine Linear.toExpr_single hc b ▸ Linear.Proper.canonical ⟨List.nodup_singleton _, fun x hx => ?_⟩
    exact List.mem_singleton.mp hx ▸ hb

end IsSummand

/-! ## Linear forms -/

namespace Linear

theorem Proper.plus? (hl : l.Proper) (ht : IsSummand e) (h : l.plus? e = some l') : l'.Proper where
  once := once_plus? hl.once h
  bases x hx := (mem_plus? h hx).elim (hl.bases x) ht.base_of_slot

theorem Proper.collect? (hes : ∀ e ∈ es, IsSummand e) (h : collect? es = some l) : l.Proper :=
  foldlM_induction ⟨once_empty, fun x hx => (by cases hx)⟩ (fun e he _ _ hl => hl.plus? (hes e he)) h

theorem Proper.isSummand (hl : l.Proper) : ∀ e ∈ l.terms, IsSummand e := by
  intro e he
  rcases mem_terms he with ⟨x, hx, hne, rfl⟩ | rfl
  · exact .scale hne (hl.bases x hx)
  · exact .const _

/-- The terms of a linear form have its bases, each once. -/
theorem Proper.nodup_terms (hl : l.Proper) : (l.terms.map slot).Nodup := by
  have hslots : ((l.coefficients.entries.filter (·.2 != 0)).map fun x => scale x.2 x.1).map slot =
      (l.coefficients.entries.filter (·.2 != 0)).map fun x => some x.1 := by
    rw [List.map_map]
    exact List.map_congr_left fun x hx => (hl.bases x (List.mem_filter.mp hx).1).shape.slot_scale x.2
  have hn : ((l.coefficients.entries.filter (·.2 != 0)).map fun x => some x.1).Nodup := by
    have hkeys : ((l.coefficients.entries.filter (·.2 != 0)).map Prod.fst).Nodup :=
      List.Sublist.nodup (List.filter_sublist.map _) hl.once
    have hslots := hkeys.map (Option.some_injective _)
    rwa [List.map_map] at hslots
  unfold terms
  rw [((perm_sortBy le _).map slot).nodup_iff]
  split
  · rwa [hslots]
  · rw [List.map_append, hslots]
    refine List.Nodup.append hn (List.nodup_singleton _) fun k hk hk' => ?_
    obtain ⟨x, -, rfl⟩ := List.mem_map.mp hk
    cases List.mem_singleton.mp hk'

theorem Proper.lists_terms (hl : l.Proper) : l.Lists l.terms where
  once := hl.nodup_terms
  amount e he := by
    rcases mem_terms he with ⟨x, hx, -, rfl⟩ | rfl
    · have hb := (hl.bases x hx).shape
      rw [hb.slot_scale, hb.amount_scale, part_of_mem hl.once hx]
    · rfl
  rest k hk := by
    by_contra hne
    cases k with
    | none => exact hk (List.mem_map_of_mem (f := slot) (const_mem_terms hne))
    | some b =>
      have hx := mem_of_part hl.once hne
      exact hk (List.mem_map.mpr ⟨_, scale_mem_terms hx hne, (hl.bases _ hx).shape.slot_scale _⟩)

/-- A canonical sum is one term or the sum of its terms. -/
theorem Proper.toExpr_cases (hl : l.Proper) :
    IsSummand l.toExpr ∨ ∃ ts, l.toExpr = add ts ∧ ∀ t ∈ ts, IsSummand t := by
  have hterms := hl.isSummand
  unfold toExpr
  split
  · exact Or.inl (.const 0)
  · rename_i e he
    exact Or.inl (hterms e (he ▸ List.mem_singleton_self e))
  · exact Or.inr ⟨_, rfl, hterms⟩

theorem Proper.lists_summands (hl : l.Proper) : l.Lists l.toExpr.summands := by
  have hlists := hl.lists_terms
  have hterms := hl.isSummand
  unfold toExpr
  split
  · -- no term is left, and the sum is a zero
    rename_i hnil
    rw [hnil] at hlists
    have hzero := fun k => hlists.rest k (by simp)
    exact ⟨List.nodup_singleton _, fun t ht => by rw [hzero, List.mem_singleton.mp ht]; rfl, fun k _ => hzero k⟩
  · rename_i e he
    rw [(hterms e (he ▸ List.mem_singleton_self e)).plain.1, ← he]
    exact hlists
  · exact hlists

theorem Proper.isSummand_of_mem (hl : l.Proper) {t : SymExpr} (ht : t ∈ l.toExpr.summands) : IsSummand t := by
  rcases hl.toExpr_cases with h | ⟨ts, h, hts⟩
  · rw [h.plain.1, List.mem_singleton] at ht
    exact ht ▸ h
  · rw [h] at ht
    exact hts t ht

theorem Proper.ne_unknown (hl : l.Proper) : l.toExpr ≠ unknown := by
  rcases hl.toExpr_cases with h | ⟨ts, h, -⟩
  · exact h.plain.2.2
  · rw [h]
    exact fun heq => by cases heq

theorem Proper.recurs_summands (hl : l.Proper) : recurs l.toExpr.summands = [] :=
  List.filterMap_eq_nil_iff.mpr fun _ ht => (hl.isSummand_of_mem ht).plain.2.1

theorem Proper.steady_summands (hl : l.Proper) : steady l.toExpr.summands = l.toExpr.summands :=
  List.filter_eq_self.mpr fun _ ht => by rw [isRecur, (hl.isSummand_of_mem ht).plain.2.1]; rfl

end Linear

/-! ## The constructors keep the form -/

/-- The parts of a canonical recurrence are canonical. -/
theorem Canonical.parts (hx : Canonical (.recur a s h)) : Canonical a ∧ Canonical s := by
  generalize heq : SymExpr.recur a s h = x at hx
  induction hx using Canonical.induct with
  | unknown => cases heq
  | linear hl =>
    rcases hl.toExpr_cases with ht | ⟨ts, hsum, -⟩
    · rw [← heq] at ht
      cases ht.plain.2.1
    · cases heq.trans hsum
  | recur ha hs =>
    cases heq
    exact ⟨ha, hs⟩

theorem canonical_recurrence (ha : Canonical a) (hs : Canonical s) (h : BlockId) : Canonical (recurrence a s h) := by
  unfold recurrence
  split
  · exact .unknown
  · rename_i hk
    simp only [Bool.or_eq_true, Bool.not_eq_true', not_or, Bool.not_eq_false, isKnown_iff] at hk
    split
    · exact ha
    · exact .recur ha hs hk.1 hk.2 ‹_›

/-! ### Sums -/

/-- What a canonical term adds to a sum is a term or itself, a recurrence. -/
theorem Canonical.of_mem_summands (hx : Canonical x) (hk : x ≠ .unknown) {t : SymExpr} (ht : t ∈ x.summands) :
    Canonical t ∧ (IsSummand t ∨ t.isRecur = true) := by
  induction hx using Canonical.induct with
  | unknown => exact absurd rfl hk
  | linear hl =>
    have hterm := hl.isSummand_of_mem ht
    exact ⟨hterm.canonical, Or.inl hterm⟩
  | recur ha hs hka hks hg =>
    obtain rfl := List.mem_singleton.mp ht
    exact ⟨.recur ha hs hka hks hg, Or.inr rfl⟩

theorem of_mem_openSums (hes : ∀ e ∈ es, Canonical e) (ho : openSums es = some flat) {t : SymExpr} (ht : t ∈ flat) :
    Canonical t ∧ (IsSummand t ∨ t.isRecur = true) := by
  obtain ⟨x, hx, ht⟩ := exists_mem_summands ho ht
  exact (hes x hx).of_mem_summands (isKnown_iff.mp ((openSums_exact ho).1 x hx)) ht

theorem canonical_sum (hes : ∀ e ∈ es, Canonical e) : Canonical (sum es) := by
  fun_induction sum es with
  | case1 | case4 => exact .unknown
  | case2 es flat ho hr =>
    have hterms : ∀ t ∈ flat, IsSummand t := by
      intro t ht
      refine (of_mem_openSums hes ho ht).2.resolve_right fun hrec => ?_
      obtain ⟨r, hrec⟩ := Option.isSome_iff_exists.mp hrec
      have hmem : r ∈ recurs flat := List.mem_filterMap.mpr ⟨t, ht, hrec⟩
      rw [hr] at hmem
      cases hmem
    cases hl : Linear.collect? flat with
    | none => exact .unknown
    | some l => exact (Linear.Proper.collect? hterms hl).canonical
  | case3 es flat ho r more hr _ ihStart ihStep =>
    have hparts : ∀ x ∈ r :: more, Canonical x.1 ∧ Canonical x.2.1 := fun x hx =>
      (of_mem_openSums hes ho (mem_of_mem_recurs (hr ▸ hx))).1.parts
    refine canonical_recurrence (ihStart fun e he => ?_) (ihStep fun e he => ?_) _
    · rcases List.mem_append.mp he with he | he
      · exact (of_mem_openSums hes ho (List.mem_filter.mp he).1).1
      · obtain ⟨x, hx, rfl⟩ := List.mem_map.mp he
        exact (hparts x hx).1
    · obtain ⟨x, hx, rfl⟩ := List.mem_map.mp he
      exact (hparts x hx).2

/-! ### Products -/

theorem CanonicalBase.canonical (hb : CanonicalBase b) : Canonical b := by
  have hone : scale 1 b = b := if_pos rfl
  exact hone ▸ IsSummand.canonical (.scale (by decide) hb)

theorem CanonicalBase.canonical_of_mem (hb : CanonicalBase b) (hf : f ∈ b.factors) : Canonical f := by
  cases hb.shape with
  | leaf | quot => exact List.mem_singleton.mp hf ▸ hb.canonical
  | mul => exact hb.factors _ rfl f hf

theorem IsSummand.of_mem_factors (ht : IsSummand e) (hf : f ∈ e.factors) :
    Canonical f ∧ (IsFactor f ∨ ∃ n, f = .const n) := by
  cases ht with
  | const n =>
    obtain rfl := List.mem_singleton.mp hf
    exact ⟨(IsSummand.const n).canonical, Or.inr ⟨n, rfl⟩⟩
  | @scale c b _ hb =>
    rw [hb.shape.factors_scale, List.mem_append] at hf
    rcases hf with hf | hf
    · split at hf
      · cases hf
      · obtain rfl := List.mem_singleton.mp hf
        exact ⟨(IsSummand.const c).canonical, Or.inr ⟨c, rfl⟩⟩
    · exact ⟨hb.canonical_of_mem hf, Or.inl (hb.shape.isFactor_of_mem hf)⟩

theorem canonicalBase_leaf (v : ValueId) : CanonicalBase (leaf v) := ⟨.leaf v, fun fs h => (by cases h)⟩

theorem canonicalBase_quot (a b : SymExpr) : CanonicalBase (quot a b) := ⟨.quot a b, fun fs h => (by cases h)⟩

theorem canonicalBase_mul (htwo : 2 ≤ es.length) (hfactor : ∀ f ∈ es, IsFactor f) (hcan : ∀ f ∈ es, Canonical f) :
    CanonicalBase (mul (sortBy le es)) := by
  refine ⟨.mul ?_ (sortBy_pairwise le le_trans le_total _) fun f hf => hfactor f (mem_sortBy.mp hf), fun fs heq f hf => ?_⟩
  · rwa [(perm_sortBy le es).length_eq]
  · cases heq
    exact hcan f (mem_sortBy.mp hf)

/-- What a canonical factor adds to a product: constants, factors, or itself, a recurrence. -/
theorem Canonical.of_mem_factors (hx : Canonical x) (hk : x ≠ .unknown) (hf : f ∈ x.factors) :
    Canonical f ∧ (IsFactor f ∨ (∃ n, f = const n) ∨ f.isRecur = true) := by
  induction hx using Canonical.induct with
  | unknown => exact absurd rfl hk
  | linear hl =>
    rcases hl.toExpr_cases with ht | ⟨ts, heq, -⟩
    · exact (ht.of_mem_factors hf).imp_right (Or.imp_right Or.inl)
    · have hcan := hl.canonical
      rw [heq] at hf hcan
      obtain rfl := List.mem_singleton.mp hf
      exact ⟨hcan, Or.inl (.add ts)⟩
  | recur ha hs hka hks hg =>
    obtain rfl := List.mem_singleton.mp hf
    exact ⟨.recur ha hs hka hks hg, Or.inr (Or.inr rfl)⟩

theorem of_mem_openProducts (hes : ∀ e ∈ es, Canonical e) (ho : openProducts es = some flat)
    (hf : f ∈ flat.filter (!·.isConst)) : Canonical f ∧ (IsFactor f ∨ f.isRecur = true) := by
  obtain ⟨hf, hconst⟩ := List.mem_filter.mp hf
  obtain ⟨x, hx, hf⟩ := exists_mem_factors ho hf
  obtain ⟨hcan, hcases⟩ := (hes x hx).of_mem_factors (isKnown_iff.mp ((openProducts_exact ho).1 x hx)) hf
  refine ⟨hcan, hcases.imp_right fun h => h.resolve_left ?_⟩
  rintro ⟨n, rfl⟩
  cases hconst

theorem isRecur_of_splitRecur? (hs : splitRecur? es = none) : ∀ e ∈ es, e.isRecur = false := by
  fun_induction splitRecur? es with
  | case1 => exact fun e he => (by cases he)
  | case2 => cases hs
  | case3 e rest hrec ih =>
    refine List.forall_mem_cons.mpr ⟨?_, ih (Option.map_eq_none_iff.mp hs)⟩
    cases e with
    | recur a s h => exact absurd rfl (hrec a s h)
    | _ => rfl

/-- Without a recurrence, what is left of a product apart from its constant are factors. -/
theorem isFactor_of_openProducts (hes : ∀ e ∈ es, Canonical e) (ho : openProducts es = some flat)
    (hs : splitRecur? (flat.filter (!·.isConst)) = none) : ∀ f ∈ flat.filter (!·.isConst), IsFactor f := by
  intro f hf
  refine (of_mem_openProducts hes ho hf).2.resolve_right fun hrec => ?_
  cases hrec.symm.trans (isRecur_of_splitRecur? hs f hf)

theorem canonical_product (hes : ∀ e ∈ es, Canonical e) : Canonical (product es) := by
  have hconst : ∀ n, Canonical (const n) := fun n => (IsSummand.const n).canonical
  fun_induction product es with
  | case1 | case2 | case4 => exact .unknown
  | case3 => exact hconst 0
  | case5 es flat ho c _ _ a s h others hs _ ihStart ihStep =>
    obtain ⟨-, hmem, hothers⟩ := splitRecur?_exact hs
    obtain ⟨ha, hs⟩ := (of_mem_openProducts hes ho hmem).1.parts
    have hall : ∀ t, Canonical t → ∀ e ∈ others ++ [const c, t], Canonical e := by
      intro t ht e he
      rcases List.mem_append.mp he with he | he
      · exact (of_mem_openProducts hes ho (hothers e he)).1
      · rcases List.mem_pair.mp he with rfl | rfl
        · exact hconst c
        · exact ht
    exact canonical_recurrence (ihStart (hall a ha)) (ihStep (hall s hs)) h
  | case6 es flat ho c => exact hconst c
  | case7 es flat ho c _ _ _ terms hf ih =>
    have hsum : Canonical (add terms) := (of_mem_openProducts hes ho (hf ▸ List.mem_singleton_self _)).1
    refine canonical_sum fun e he => ?_
    obtain ⟨t, -, rfl⟩ := List.mem_map.mp he
    refine ih t fun e he => ?_
    rcases List.mem_pair.mp he with rfl | rfl
    · exact hconst c
    · exact (hsum.of_mem_summands (fun heq => (by cases heq)) t.2).1
  | case8 es flat ho c _ hne hs e hadd hf =>
    have hbase : CanonicalBase e := by
      cases isFactor_of_openProducts hes ho hs e (hf ▸ List.mem_singleton_self _) with
      | leaf v => exact canonicalBase_leaf v
      | quot a b => exact canonicalBase_quot a b
      | add ts => exact absurd rfl (hadd ts)
    exact (IsSummand.scale hne hbase).canonical
  | case9 es flat ho c _ hne hs hnil _ hone =>
    have htwo : 2 ≤ (flat.filter (!·.isConst)).length := by
      rcases hrest : flat.filter (!·.isConst) with - | ⟨e, - | ⟨e', more⟩⟩
      · exact absurd hrest hnil
      · exact absurd hrest (hone e)
      · rw [hrest]
        exact Nat.le_add_left 2 more.length
    have hbase := canonicalBase_mul htwo (isFactor_of_openProducts hes ho hs) fun f hf => (of_mem_openProducts hes ho hf).1
    exact (IsSummand.scale hne hbase).canonical

/-! ### Quotients -/

theorem canonical_quotient (ha : Canonical a) : Canonical (quotient a b) := by
  unfold quotient
  split
  · exact .unknown
  · split
    · exact .unknown
    · exact ha
    · rename_i m n _ _ _ _
      cases Word.quot? m n with
      | none => exact .unknown
      | some q => exact (IsSummand.const q).canonical
    · exact (canonicalBase_quot a b).canonical

/-! ## What the constructors build -/

/-- Expressions that the constructors build from constants, leaves and what is not expressible. -/
inductive Constructed : SymExpr → Prop
  | const (n : Word) : Constructed (const n)
  | leaf (v : ValueId) : Constructed (leaf v)
  | unknown : Constructed unknown
  | sum {es : List SymExpr} (terms : ∀ e ∈ es, Constructed e) : Constructed (sum es)
  | product {es : List SymExpr} (factors : ∀ e ∈ es, Constructed e) : Constructed (product es)
  | plus {a b : SymExpr} (left : Constructed a) (right : Constructed b) : Constructed (plus a b)
  | minus {a b : SymExpr} (left : Constructed a) (right : Constructed b) : Constructed (minus a b)
  | negate {a : SymExpr} (operand : Constructed a) : Constructed (negate a)
  | times {a b : SymExpr} (left : Constructed a) (right : Constructed b) : Constructed (times a b)
  | quotient {a b : SymExpr} (num : Constructed a) (den : Constructed b) : Constructed (quotient a b)
  | recurrence {a s : SymExpr} (start : Constructed a) (step : Constructed s) (h : BlockId) : Constructed (recurrence a s h)

theorem canonical_plus (ha : Canonical a) (hb : Canonical b) : Canonical (plus a b) :=
  canonical_sum (by simp [ha, hb])

theorem canonical_times (ha : Canonical a) (hb : Canonical b) : Canonical (times a b) :=
  canonical_product (by simp [ha, hb])

theorem canonical_negate (ha : Canonical a) : Canonical (negate a) := canonical_times (IsSummand.const (-1)).canonical ha

theorem Constructed.canonical (hx : Constructed x) : Canonical x := by
  induction hx with
  | const n => exact (IsSummand.const n).canonical
  | leaf v => exact (canonicalBase_leaf v).canonical
  | unknown => exact .unknown
  | sum _ ih => exact canonical_sum ih
  | product _ ih => exact canonical_product ih
  | plus _ _ iha ihb => exact canonical_plus iha ihb
  | minus _ _ iha ihb => exact canonical_plus iha (canonical_negate ihb)
  | negate _ ih => exact canonical_negate ih
  | times _ _ iha ihb => exact canonical_times iha ihb
  | quotient _ _ iha => exact canonical_quotient iha
  | recurrence _ _ h iha ihs => exact canonical_recurrence iha ihs h

end SymExpr

end SsaFusion
