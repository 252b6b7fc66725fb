import Mathlib.Algebra.BigOperators.Ring.List
import Mathlib.Tactic.Ring
import SsaFusion.Symbolic.Normal

/-!
# What expressions mean

An expression is an integer once its leaves are read and the rounds of its loops are counted (`eval`), or any integers are
put in place of the counts (`evalIn`). There the canonical constructors are exact: a known sum evaluates to the sum of its
terms and a known product to the product of its factors, without any wrapping around, and neither reads an atom that its
parts do not read (`sum_exactIn`, `product_exactIn`).
-/

namespace SsaFusion

/-- What an expression is read with: integers for its leaves and, for headers, how often control came back to them. -/
structure Reading where
  value : ValueId → Int
  rounds : BlockId → Nat

/-- Integers for leaves and headers. -/
structure Valuation where
  value : ValueId → Int
  rounds : BlockId → Int

/-- The integers of a reading. -/
def Reading.valuation (r : Reading) : Valuation := ⟨r.value, fun h => r.rounds h⟩

/-- What an expression reads. -/
inductive Atom where
  | value (v : ValueId)
  | round (h : BlockId)
deriving DecidableEq

/-- The datum that a reading has for an atom. -/
def Reading.at (r : Reading) : Atom → Int
  | .value v => r.value v
  | .round h => r.rounds h

/-- The integer that a valuation has for an atom. -/
def Valuation.at (v : Valuation) : Atom → Int
  | .value x => v.value x
  | .round h => v.rounds h

/-- The valuation with a number of rounds for one header. -/
def Valuation.inRound (v : Valuation) (h : BlockId) (k : Int) : Valuation :=
  { v with rounds := Function.update v.rounds h k }

theorem Reading.at_valuation (r : Reading) (x : Atom) : r.valuation.at x = r.at x := by cases x <;> rfl

theorem Valuation.at_inRound (v : Valuation) (h : BlockId) (k : Int) (x : Atom) :
    (v.inRound h k).at x = if x = .round h then k else v.at x := by
  cases x with
  | value => rfl
  | round h' =>
    by_cases hh : h' = h
    · subst hh
      simp [Valuation.at, inRound]
    · simp [Valuation.at, inRound, hh]

@[simp] theorem Valuation.rounds_inRound (v : Valuation) (h : BlockId) (k : Int) : (v.inRound h k).rounds h = k := by
  simp [inRound]

namespace SymExpr

mutual

/-- The integer that an expression stands for when rounds are any integers. -/
def evalIn (v : Valuation) : SymExpr → Int
  | const n => n.toInt
  | leaf x => v.value x
  | add ts => (evalsIn v ts).sum
  | mul fs => (evalsIn v fs).prod
  | quot a b => evalIn v a / evalIn v b
  | recur a s h => evalIn v a + v.rounds h * evalIn v s
  | unknown => 0

/-- The integers that the expressions of a list stand for. -/
def evalsIn (v : Valuation) : List SymExpr → List Int
  | [] => []
  | e :: es => evalIn v e :: evalsIn v es

end

/-- The integer that an expression stands for in a reading. -/
def eval (r : Reading) (e : SymExpr) : Int := evalIn r.valuation e

mutual

/-- The atoms of an expression, at every depth. -/
def atoms : SymExpr → List Atom
  | const _ | unknown => []
  | leaf v => [.value v]
  | add ts => atomsOf ts
  | mul fs => atomsOf fs
  | quot a b => atoms a ++ atoms b
  | recur a s h => .round h :: (atoms a ++ atoms s)

/-- The atoms of the expressions of a list. -/
def atomsOf : List SymExpr → List Atom
  | [] => []
  | e :: es => atoms e ++ atomsOf es

end

variable {r r' : Reading} {v v' : Valuation} {e : SymExpr} {es : List SymExpr}

theorem evalsIn_eq_map (v : Valuation) (es : List SymExpr) : evalsIn v es = es.map (evalIn v) := by
  induction es with
  | nil => rfl
  | cons e es ih => rw [evalsIn, ih, List.map_cons]

theorem atomsOf_eq_flatMap (es : List SymExpr) : atomsOf es = es.flatMap atoms := by
  induction es with
  | nil => rfl
  | cons e es ih => rw [atomsOf, ih, List.flatMap_cons]

@[simp] theorem evalIn_const (n : Word) : evalIn v (const n) = n.toInt := rfl

@[simp] theorem evalIn_recur (a s : SymExpr) (h : BlockId) :
    evalIn v (recur a s h) = evalIn v a + v.rounds h * evalIn v s := rfl

@[simp] theorem evalIn_add : evalIn v (add es) = (es.map (evalIn v)).sum := by rw [evalIn, evalsIn_eq_map]

@[simp] theorem evalIn_mul : evalIn v (mul es) = (es.map (evalIn v)).prod := by rw [evalIn, evalsIn_eq_map]

@[simp] theorem atoms_const (n : Word) : atoms (const n) = [] := rfl

@[simp] theorem atoms_recur (a s : SymExpr) (h : BlockId) : atoms (recur a s h) = .round h :: (atoms a ++ atoms s) := rfl

@[simp] theorem atoms_add : atoms (add es) = es.flatMap atoms := by rw [atoms, atomsOf_eq_flatMap]

@[simp] theorem atoms_mul : atoms (mul es) = es.flatMap atoms := by rw [atoms, atomsOf_eq_flatMap]

mutual

/-- An expression depends on its atoms only. -/
theorem evalIn_congr : (e : SymExpr) → (∀ x ∈ e.atoms, v.at x = v'.at x) → evalIn v e = evalIn v' e
  | const _, _ | unknown, _ => rfl
  | leaf x, h => h (.value x) (by simp [atoms])
  | add ts, h => by rw [evalIn, evalIn, evalsIn_congr ts h]
  | mul fs, h => by rw [evalIn, evalIn, evalsIn_congr fs h]
  | quot a b, h => by
    rw [evalIn, evalIn, evalIn_congr a fun x hx => h x (by simp [atoms, hx]),
      evalIn_congr b fun x hx => h x (by simp [atoms, hx])]
  | recur a s k, h => by
    have hk : v.rounds k = v'.rounds k := h (.round k) (by simp [atoms])
    rw [evalIn, evalIn, hk, evalIn_congr a fun x hx => h x (by simp [atoms, hx]),
      evalIn_congr s fun x hx => h x (by simp [atoms, hx])]

theorem evalsIn_congr : (es : List SymExpr) → (∀ x ∈ atomsOf es, v.at x = v'.at x) → evalsIn v es = evalsIn v' es
  | [], _ => rfl
  | e :: es, h => by
    rw [evalsIn, evalsIn, evalIn_congr e fun x hx => h x (by simp [atomsOf, hx]),
      evalsIn_congr es fun x hx => h x (by simp [atomsOf, hx])]

end

theorem eval_congr (e : SymExpr) (h : ∀ x ∈ e.atoms, r.at x = r'.at x) : eval r e = eval r' e := by
  refine evalIn_congr e fun x hx => ?_
  cases x <;> exact h _ hx

/-- The rounds of a header that an expression does not mention make no difference. -/
theorem evalIn_inRound {h : BlockId} (hfree : .round h ∉ e.atoms) (k : Int) : evalIn (v.inRound h k) e = evalIn v e := by
  refine evalIn_congr e fun x hx => ?_
  cases x with
  | value x => rfl
  | round b =>
    have hne : b ≠ h := by
      rintro rfl
      exact hfree hx
    exact Function.update_of_ne hne k v.rounds

/-- A recurrence in a round of its own loop. -/
theorem evalIn_recur_inRound {a s : SymExpr} {h : BlockId} (ha : .round h ∉ a.atoms) (hs : .round h ∉ s.atoms) (k : Int) :
    evalIn (v.inRound h k) (recur a s h) = evalIn v a + k * evalIn v s := by
  rw [evalIn_recur, evalIn_inRound ha, evalIn_inRound hs, Valuation.rounds_inRound]

theorem isKnown_iff : e.isKnown = true ↔ e ≠ unknown := by simp [isKnown]

/-! ## Recurrences -/

theorem recurrence_exactIn {a s : SymExpr} {h : BlockId} (hk : (recurrence a s h).isKnown = true) :
    a.isKnown = true ∧ s.isKnown = true ∧ (∀ v, evalIn v (recurrence a s h) = evalIn v a + v.rounds h * evalIn v s) ∧
      (recurrence a s h).atoms ⊆ .round h :: (a.atoms ++ s.atoms) := by
  unfold recurrence at hk ⊢
  split at hk
  · cases hk
  · rename_i hparts
    simp only [Bool.or_eq_true, Bool.not_eq_true', not_or, Bool.not_eq_false] at hparts
    refine ⟨hparts.1, hparts.2, ?_⟩
    rw [if_neg (by simp [hparts])]
    split
    · rename_i hs
      subst hs
      exact ⟨fun v => by simp [evalIn], fun x hx => by simp [hx]⟩
    · exact ⟨fun v => rfl, fun x hx => hx⟩

/-! ## Linear forms -/

theorem toInt_of_ofInt? {n : Int} {w : Word} (h : Word.ofInt? n = some w) : w.toInt = n := by
  unfold Word.ofInt? Word.greatest at h
  split at h
  · cases h
    rename_i hn
    exact Int64.toInt_ofInt_of_le (by simp; omega) (by simp; omega)
  · cases h

theorem evalIn_scale (c : Word) (base : SymExpr) : evalIn v (scale c base) = c.toInt * evalIn v base := by
  unfold scale
  split
  · rename_i hc
    simp [hc]
  · split <;> simp

theorem atoms_scale (c : Word) (base : SymExpr) : (scale c base).atoms ⊆ base.atoms := by
  unfold scale
  split
  · exact fun _ => id
  · split <;> simp

theorem evalIn_splitCoefficient (e : SymExpr) :
    e.splitCoefficient.1.toInt * evalIn v e.splitCoefficient.2 = evalIn v e := by
  unfold splitCoefficient
  split <;> simp

theorem atoms_splitCoefficient (e : SymExpr) : e.splitCoefficient.2.atoms ⊆ e.atoms := by
  unfold splitCoefficient
  split <;> simp

namespace Linear

/-- The integer that a linear form stands for. -/
def value (v : Valuation) (l : Linear) : Int :=
  l.constant.toInt + (l.coefficients.entries.map fun x => x.2.toInt * evalIn v x.1).sum

/-- The atoms of the bases of a linear form. -/
def atoms (l : Linear) : List Atom := l.coefficients.entries.flatMap fun x => x.1.atoms

/-- Changing one coefficient changes the value by the difference. -/
theorem sum_put (v : Valuation) (base : SymExpr) (c : Word) (xs : List (SymExpr × Word)) :
    ((Table.put base c xs).map fun x => x.2.toInt * evalIn v x.1).sum =
      (xs.map fun x => x.2.toInt * evalIn v x.1).sum + (c.toInt - ((Table.lookup base xs).getD 0).toInt) * evalIn v base := by
  induction xs with
  | nil => simp [Table.put, Table.lookup]
  | cons x rest ih =>
    obtain ⟨k, a⟩ := x
    unfold Table.put Table.lookup
    split
    · rename_i e
      subst e
      simp only [List.map_cons, List.sum_cons, Option.getD_some]
      ring
    · simp only [List.map_cons, List.sum_cons, ih]
      ring

theorem mem_put {base : SymExpr} {c : Word} {xs : List (SymExpr × Word)} {x : SymExpr × Word}
    (h : x ∈ Table.put base c xs) : x = (base, c) ∨ x ∈ xs := by
  induction xs with
  | nil => exact Or.inl (by simpa [Table.put] using h)
  | cons y rest ih =>
    unfold Table.put at h
    split at h
    · exact (List.mem_cons.mp h).imp_right (List.mem_cons_of_mem _)
    · rcases List.mem_cons.mp h with h | h
      · exact Or.inr (h ▸ List.mem_cons_self ..)
      · exact (ih h).imp_right (List.mem_cons_of_mem _)

theorem plus?_exact {l l' : Linear} (h : l.plus? e = some l') :
    (∀ v, l'.value v = l.value v + evalIn v e) ∧ l'.atoms ⊆ l.atoms ++ e.atoms := by
  unfold plus? at h
  split at h
  · obtain ⟨c, hc, rfl⟩ := Option.map_eq_some_iff.mp h
    refine ⟨fun v => ?_, fun x hx => List.mem_append_left _ hx⟩
    simp only [value, toInt_of_ofInt? hc, evalIn_const]
    ring
  · have heval := fun v => evalIn_splitCoefficient (v := v) e
    have hatoms := atoms_splitCoefficient e
    generalize e.splitCoefficient = part at h heval hatoms
    obtain ⟨c₀, base⟩ := part
    obtain ⟨c, hc, rfl⟩ := Option.map_eq_some_iff.mp h
    refine ⟨fun v => ?_, fun x hx => ?_⟩
    · have hsum := sum_put v base c l.coefficients.entries
      rw [toInt_of_ofInt? hc] at hsum
      simp only [value, Table.insert, hsum, Table.get?, ← heval v]
      ring
    · obtain ⟨y, hy, hx⟩ := List.mem_flatMap.mp hx
      rcases mem_put hy with rfl | hy
      · exact List.mem_append_right _ (hatoms hx)
      · exact List.mem_append_left _ (List.mem_flatMap.mpr ⟨y, hy, hx⟩)

theorem foldlM_exact {l l' : Linear} (h : es.foldlM plus? l = some l') :
    (∀ v, l'.value v = l.value v + (es.map (evalIn v)).sum) ∧ l'.atoms ⊆ l.atoms ++ es.flatMap SymExpr.atoms := by
  induction es generalizing l with
  | nil =>
    cases h
    exact ⟨fun v => by simp, fun x hx => by simpa using hx⟩
  | cons e rest ih =>
    rw [List.foldlM_cons, Option.bind_eq_bind, Option.bind_eq_some_iff] at h
    obtain ⟨l₁, h₁, h⟩ := h
    obtain ⟨hval, hatoms⟩ := plus?_exact h₁
    obtain ⟨hval', hatoms'⟩ := ih h
    refine ⟨fun v => ?_, fun x hx => ?_⟩
    · rw [hval', hval, List.map_cons, List.sum_cons]
      ring
    · rw [List.flatMap_cons, ← List.append_assoc]
      exact (List.mem_append.mp (hatoms' hx)).elim (fun hx => List.mem_append_left _ (hatoms hx)) (List.mem_append_right _)

/-- What every term of a list keeps when it is added holds in the end if it holds in the beginning. -/
theorem foldlM_induction {P : Linear → Prop} {l₀ l : Linear} (h0 : P l₀)
    (hplus : ∀ e ∈ es, ∀ l l', P l → l.plus? e = some l' → P l') (h : es.foldlM plus? l₀ = some l) : P l := by
  induction es generalizing l₀ with
  | nil =>
    cases h
    exact h0
  | cons e rest ih =>
    rw [List.foldlM_cons, Option.bind_eq_bind, Option.bind_eq_some_iff] at h
    obtain ⟨l₁, h₁, h⟩ := h
    rw [List.forall_mem_cons] at hplus
    exact ih (hplus.1 l₀ l₁ h0 h₁) hplus.2 h

theorem collect?_exact {l : Linear} (h : collect? es = some l) :
    (∀ v, l.value v = (es.map (evalIn v)).sum) ∧ l.atoms ⊆ es.flatMap SymExpr.atoms := by
  obtain ⟨hval, hatoms⟩ := foldlM_exact h
  refine ⟨fun v => (hval v).trans ?_, fun x hx => by simpa [atoms] using hatoms hx⟩
  simp [value]

end Linear

namespace Linear

theorem sum_terms (l : Linear) : (l.terms.map (evalIn v)).sum = l.value v := by
  have hscaled : ∀ xs : List (SymExpr × Word),
      (((xs.filter (·.2 != 0)).map fun x => scale x.2 x.1).map (evalIn v)).sum =
        (xs.map fun x => x.2.toInt * evalIn v x.1).sum := by
    intro xs
    induction xs with
    | nil => rfl
    | cons x rest ih =>
      by_cases hx : x.2 = 0
      · simpa [hx] using ih
      · simpa [hx, evalIn_scale] using ih
  unfold terms value
  rw [((perm_sortBy le _).map (evalIn v)).sum_eq]
  split
  · rename_i hc
    rw [hscaled, hc]
    simp
  · rw [List.map_append, List.sum_append, hscaled]
    simp [add_comm]

/-- The terms of a linear form are its bases with their coefficients, and its constant. -/
theorem mem_terms {l : Linear} (he : e ∈ l.terms) :
    (∃ x ∈ l.coefficients.entries, x.2 ≠ 0 ∧ e = scale x.2 x.1) ∨ e = const l.constant := by
  have hscaled : ∀ e ∈ (l.coefficients.entries.filter (·.2 != 0)).map fun x => scale x.2 x.1,
      ∃ x ∈ l.coefficients.entries, x.2 ≠ 0 ∧ e = scale x.2 x.1 := by
    intro e he
    obtain ⟨x, hx, rfl⟩ := List.mem_map.mp he
    obtain ⟨hx, hne⟩ := List.mem_filter.mp hx
    exact ⟨x, hx, by simpa using hne, rfl⟩
  rw [terms, mem_sortBy] at he
  split at he
  · exact Or.inl (hscaled e he)
  · exact (List.mem_append.mp he).imp (hscaled e) List.mem_singleton.mp

theorem atoms_terms (l : Linear) : l.terms.flatMap SymExpr.atoms ⊆ l.atoms := by
  intro a ha
  obtain ⟨e, he, ha⟩ := List.mem_flatMap.mp ha
  rcases mem_terms he with ⟨x, hx, -, rfl⟩ | rfl
  · exact List.mem_flatMap.mpr ⟨x, hx, atoms_scale _ _ ha⟩
  · cases ha

theorem toExpr_exact (l : Linear) : (∀ v, evalIn v l.toExpr = l.value v) ∧ l.toExpr.atoms ⊆ l.atoms := by
  have hatoms := l.atoms_terms
  refine ⟨fun v => ?_, ?_⟩
  · rw [← sum_terms]
    unfold toExpr
    split
    · rename_i hnil
      rw [hnil]
      rfl
    · rename_i e hone
      rw [hone]
      simp
    · exact evalIn_add
  · unfold toExpr
    split
    · exact fun x hx => (by cases hx)
    · rename_i e hone
      rw [hone] at hatoms
      simpa using hatoms
    · rwa [atoms_add]

end Linear

/-! ## Sums -/

/-- What a term adds to an opened sum. -/
def summands : SymExpr → List SymExpr
  | add ts => ts
  | e => [e]

theorem eq_flatMap_summands {flat : List SymExpr} (ho : openSums es = some flat) : flat = es.flatMap summands := by
  fun_induction openSums es generalizing flat with
  | case1 =>
    cases ho
    rfl
  | case2 => cases ho
  | case3 ts rest ih =>
    obtain ⟨flat', hflat, rfl⟩ := Option.map_eq_some_iff.mp ho
    rw [List.flatMap_cons, summands, ih hflat]
  | case4 e rest _ hadd ih =>
    obtain ⟨flat', hflat, rfl⟩ := Option.map_eq_some_iff.mp ho
    rw [List.flatMap_cons, summands.eq_2 e hadd, ih hflat, List.singleton_append]

theorem exists_mem_summands {flat : List SymExpr} (ho : openSums es = some flat) (he : e ∈ flat) : ∃ x ∈ es, e ∈ x.summands := by
  rw [eq_flatMap_summands ho] at he
  exact List.mem_flatMap.mp he

theorem openSums_exact {flat : List SymExpr} (h : openSums es = some flat) :
    (∀ e ∈ es, e.isKnown = true) ∧ (∀ v, (flat.map (evalIn v)).sum = (es.map (evalIn v)).sum) ∧
      flat.flatMap atoms = es.flatMap atoms := by
  induction es generalizing flat with
  | nil =>
    cases h
    exact ⟨nofun, fun _ => rfl, rfl⟩
  | cons e rest ih =>
    unfold openSums at h
    split at h
    · cases ‹_ :: _ = _›
    · cases h
    · rename_i ts rest' heq
      cases heq
      obtain ⟨flat', hflat, rfl⟩ := Option.map_eq_some_iff.mp h
      obtain ⟨hk, hv, ha⟩ := ih hflat
      exact ⟨List.forall_mem_cons.mpr ⟨rfl, hk⟩, fun v => by simp [hv], by simp [ha]⟩
    · rename_i heq
      cases heq
      obtain ⟨flat', hflat, rfl⟩ := Option.map_eq_some_iff.mp h
      obtain ⟨hk, hv, ha⟩ := ih hflat
      exact ⟨List.forall_mem_cons.mpr ⟨isKnown_iff.mpr ‹_›, hk⟩, fun v => by simp [hv], by simp [ha]⟩

theorem eq_recur_of_recur? {x : SymExpr × SymExpr × BlockId} (h : e.recur? = some x) : e = recur x.1 x.2.1 x.2.2 := by
  unfold recur? at h
  split at h <;> cases h
  rfl

/-- The value of a list of terms, by the terms that are recurrences and those that are not. -/
theorem sum_recurs (v : Valuation) (es : List SymExpr) :
    (es.map (evalIn v)).sum =
      ((steady es).map (evalIn v)).sum + ((recurs es).map fun x => evalIn v x.1 + v.rounds x.2.2 * evalIn v x.2.1).sum := by
  induction es with
  | nil => rfl
  | cons e rest ih =>
    cases hr : e.recur? with
    | none =>
      have hsteady : steady (e :: rest) = e :: steady rest := List.filter_cons_of_pos (by simp [isRecur, hr])
      have hrecurs : recurs (e :: rest) = recurs rest := List.filterMap_cons_none hr
      rw [hsteady, hrecurs, List.map_cons, List.sum_cons, ih, List.map_cons, List.sum_cons]
      ring
    | some x =>
      have hsteady : steady (e :: rest) = steady rest := List.filter_cons_of_neg (by simp [isRecur, hr])
      have hrecurs : recurs (e :: rest) = x :: recurs rest := List.filterMap_cons_some hr
      rw [hsteady, hrecurs, List.map_cons, List.sum_cons, ih, List.map_cons, List.sum_cons, eq_recur_of_recur? hr,
        evalIn_recur]
      ring

theorem atoms_steady (es : List SymExpr) : (steady es).flatMap atoms ⊆ es.flatMap atoms := by
  intro x hx
  obtain ⟨e, he, hx⟩ := List.mem_flatMap.mp hx
  exact List.mem_flatMap.mpr ⟨e, (List.mem_filter.mp he).1, hx⟩

theorem mem_of_mem_recurs {x : SymExpr × SymExpr × BlockId} (h : x ∈ recurs es) : recur x.1 x.2.1 x.2.2 ∈ es := by
  obtain ⟨e, he, hx⟩ := List.mem_filterMap.mp h
  exact eq_recur_of_recur? hx ▸ he

/-- Recurrences over one header add up part by part. -/
theorem sum_same_header {h : BlockId} {xs : List (SymExpr × SymExpr × BlockId)} (hall : ∀ x ∈ xs, x.2.2 = h) :
    (xs.map fun x => evalIn v x.1 + v.rounds x.2.2 * evalIn v x.2.1).sum =
      ((xs.map (·.1)).map (evalIn v)).sum + v.rounds h * ((xs.map (·.2.1)).map (evalIn v)).sum := by
  induction xs with
  | nil => simp
  | cons x rest ih =>
    rw [List.forall_mem_cons] at hall
    simp only [List.map_cons, List.sum_cons, ih hall.2, hall.1]
    ring

/-- **Sums are exact.** A known sum has known terms, evaluates to the sum of their values, and reads what they read. -/
theorem sum_exactIn (hk : (sum es).isKnown = true) :
    (∀ e ∈ es, e.isKnown = true) ∧ (∀ v, evalIn v (sum es) = (es.map (evalIn v)).sum) ∧
      (sum es).atoms ⊆ es.flatMap atoms := by
  fun_induction sum es with
  | case1 es ho => cases hk
  | case2 es flat ho hr =>
    obtain ⟨hknown, hval, hatoms⟩ := openSums_exact ho
    cases hl : Linear.collect? flat with
    | none =>
      rw [hl] at hk
      cases hk
    | some l =>
      obtain ⟨hlval, hlatoms⟩ := Linear.collect?_exact hl
      obtain ⟨heval, heatoms⟩ := l.toExpr_exact
      refine ⟨hknown, fun v => ?_, fun x hx => ?_⟩
      · exact (heval v).trans ((hlval v).trans (hval v))
      · exact hatoms ▸ hlatoms (heatoms hx)
  | case3 es flat ho x more hr hall ihStart ihStep =>
    obtain ⟨hknown, hval, hatoms⟩ := openSums_exact ho
    obtain ⟨hstart, hstep, heval, heatoms⟩ := recurrence_exactIn hk
    obtain ⟨-, hstartVal, hstartAtoms⟩ := ihStart hstart
    obtain ⟨-, hstepVal, hstepAtoms⟩ := ihStep hstep
    have hsame : ∀ y ∈ x :: more, y.2.2 = x.2.2 :=
      List.forall_mem_cons.mpr ⟨rfl, fun y hy => by simpa using List.all_eq_true.mp hall y hy⟩
    refine ⟨hknown, fun v => ?_, fun a ha => ?_⟩
    · rw [heval, hstartVal, hstepVal, ← hval, sum_recurs v flat, hr, sum_same_header hsame, List.map_append,
        List.sum_append]
      ring
    · -- every part of the recurrence comes from a term of the opened sum
      have hpart : ∀ y ∈ x :: more, (recur y.1 y.2.1 y.2.2).atoms ⊆ es.flatMap atoms := fun y hy a ha => by
        rw [← hatoms]
        exact List.mem_flatMap.mpr ⟨_, mem_of_mem_recurs (hr ▸ hy), ha⟩
      rcases List.mem_cons.mp (heatoms ha) with rfl | ha
      · exact hpart x (List.mem_cons_self ..) (List.mem_cons_self ..)
      · rcases List.mem_append.mp ha with ha | ha
        · have ha := hstartAtoms ha
          rw [List.flatMap_append] at ha
          rcases List.mem_append.mp ha with ha | ha
          · exact hatoms ▸ atoms_steady flat ha
          · obtain ⟨e, he, ha⟩ := List.mem_flatMap.mp ha
            obtain ⟨y, hy, rfl⟩ := List.mem_map.mp he
            exact hpart y hy (by simp [atoms, ha])
        · obtain ⟨e, he, ha⟩ := List.mem_flatMap.mp (hstepAtoms ha)
          obtain ⟨y, hy, rfl⟩ := List.mem_map.mp he
          exact hpart y hy (by simp [atoms, ha])
  | case4 => cases hk

/-! ## Products -/

/-- What a factor adds to an opened product. -/
def factors : SymExpr → List SymExpr
  | mul fs => fs
  | e => [e]

theorem eq_flatMap_factors {flat : List SymExpr} (ho : openProducts es = some flat) : flat = es.flatMap factors := by
  fun_induction openProducts es generalizing flat with
  | case1 =>
    cases ho
    rfl
  | case2 => cases ho
  | case3 fs rest ih =>
    obtain ⟨flat', hflat, rfl⟩ := Option.map_eq_some_iff.mp ho
    rw [List.flatMap_cons, factors, ih hflat]
  | case4 e rest _ hmul ih =>
    obtain ⟨flat', hflat, rfl⟩ := Option.map_eq_some_iff.mp ho
    rw [List.flatMap_cons, factors.eq_2 e hmul, ih hflat, List.singleton_append]

theorem exists_mem_factors {flat : List SymExpr} (ho : openProducts es = some flat) (he : e ∈ flat) : ∃ x ∈ es, e ∈ x.factors := by
  rw [eq_flatMap_factors ho] at he
  exact List.mem_flatMap.mp he

theorem openProducts_exact {flat : List SymExpr} (h : openProducts es = some flat) :
    (∀ e ∈ es, e.isKnown = true) ∧ (∀ v, (flat.map (evalIn v)).prod = (es.map (evalIn v)).prod) ∧
      flat.flatMap atoms = es.flatMap atoms := by
  induction es generalizing flat with
  | nil =>
    cases h
    exact ⟨nofun, fun _ => rfl, rfl⟩
  | cons e rest ih =>
    unfold openProducts at h
    split at h
    · cases ‹_ :: _ = _›
    · cases h
    · rename_i fs rest' heq
      cases heq
      obtain ⟨flat', hflat, rfl⟩ := Option.map_eq_some_iff.mp h
      obtain ⟨hk, hv, ha⟩ := ih hflat
      exact ⟨List.forall_mem_cons.mpr ⟨rfl, hk⟩, fun v => by simp [hv], by simp [ha]⟩
    · rename_i heq
      cases heq
      obtain ⟨flat', hflat, rfl⟩ := Option.map_eq_some_iff.mp h
      obtain ⟨hk, hv, ha⟩ := ih hflat
      exact ⟨List.forall_mem_cons.mpr ⟨isKnown_iff.mpr ‹_›, hk⟩, fun v => by simp [hv], by simp [ha]⟩

theorem eq_const_of_const? {n : Word} (h : e.const? = some n) : e = const n := by
  unfold const? at h
  split at h <;> cases h
  rfl

theorem prod_foldlM_mul? {ws : List Word} {c c' : Word} (h : ws.foldlM Word.mul? c = some c') :
    c'.toInt = c.toInt * (ws.map Int64.toInt).prod := by
  induction ws generalizing c with
  | nil =>
    cases h
    simp
  | cons w rest ih =>
    rw [List.foldlM_cons, Option.bind_eq_bind, Option.bind_eq_some_iff] at h
    obtain ⟨c₁, h₁, h⟩ := h
    rw [ih h, toInt_of_ofInt? h₁, List.map_cons, List.prod_cons]
    ring

/-- The value of a list of factors, by its constants and the rest. -/
theorem prod_constantFactor? {c : Word} (h : constantFactor? es = some c) (v : Valuation) :
    (es.map (evalIn v)).prod = c.toInt * ((es.filter (!·.isConst)).map (evalIn v)).prod := by
  have hsplit : (es.map (evalIn v)).prod =
      ((es.filterMap const?).map Int64.toInt).prod * ((es.filter (!·.isConst)).map (evalIn v)).prod := by
    clear h
    induction es with
    | nil => rfl
    | cons e rest ih =>
      cases hc : e.const? with
      | none =>
        rw [List.filterMap_cons_none hc, List.filter_cons_of_pos (by simp [isConst, hc]), List.map_cons, List.prod_cons, ih,
          List.map_cons, List.prod_cons]
        ring
      | some n =>
        rw [List.filterMap_cons_some hc, List.filter_cons_of_neg (by simp [isConst, hc]), List.map_cons, List.prod_cons, ih,
          List.map_cons, List.prod_cons, eq_const_of_const? hc, evalIn_const]
        ring
  rw [hsplit, prod_foldlM_mul? h]
  simp

theorem splitRecur?_exact {a s : SymExpr} {h : BlockId} {others : List SymExpr}
    (hs : splitRecur? es = some ((a, s, h), others)) :
    (∀ v, (es.map (evalIn v)).prod = (evalIn v a + v.rounds h * evalIn v s) * (others.map (evalIn v)).prod) ∧
      recur a s h ∈ es ∧ ∀ e ∈ others, e ∈ es := by
  induction es generalizing others with
  | nil => cases hs
  | cons e rest ih =>
    unfold splitRecur? at hs
    split at hs
    · cases ‹_ :: _ = _›
    · rename_i heq
      cases heq
      cases hs
      exact ⟨fun v => by simp, List.mem_cons_self .., fun e he => List.mem_cons_of_mem _ he⟩
    · rename_i heq
      cases heq
      obtain ⟨⟨p, others'⟩, hp, hs⟩ := Option.map_eq_some_iff.mp hs
      cases hs
      obtain ⟨hv, hmem, hothers⟩ := ih hp
      refine ⟨fun v => ?_, List.mem_cons_of_mem _ hmem, fun e he => ?_⟩
      · rw [List.map_cons, List.prod_cons, hv, List.map_cons, List.prod_cons]
        ring
      · exact (List.mem_cons.mp he).elim (· ▸ List.mem_cons_self ..) fun he => List.mem_cons_of_mem _ (hothers e he)

/-- A product is right if it is right about the factors that are left when products are opened and constants collected. -/
theorem exact_of_open {flat : List SymExpr} {c : Word} (ho : openProducts es = some flat)
    (hc : constantFactor? flat = some c)
    (hv : ∀ v, evalIn v e = c.toInt * ((flat.filter (!·.isConst)).map (evalIn v)).prod)
    (ha : e.atoms ⊆ (flat.filter (!·.isConst)).flatMap atoms) :
    (∀ e ∈ es, e.isKnown = true) ∧ (∀ v, evalIn v e = (es.map (evalIn v)).prod) ∧ e.atoms ⊆ es.flatMap atoms := by
  obtain ⟨hknown, hval, hatoms⟩ := openProducts_exact ho
  refine ⟨hknown, fun v => ?_, fun x hx => ?_⟩
  · rw [hv, ← hval, prod_constantFactor? hc]
  · obtain ⟨e', he', hx⟩ := List.mem_flatMap.mp (ha hx)
    rw [← hatoms]
    exact List.mem_flatMap.mpr ⟨e', (List.mem_filter.mp he').1, hx⟩

/-- **Products are exact.** A known product has known factors, evaluates to the product of their values, and reads what
they read. -/
theorem product_exactIn (hk : (product es).isKnown = true) :
    (∀ e ∈ es, e.isKnown = true) ∧ (∀ v, evalIn v (product es) = (es.map (evalIn v)).prod) ∧
      (product es).atoms ⊆ es.flatMap atoms := by
  fun_induction product es with
  | case1 | case2 | case4 => cases hk
  | case3 es flat ho hc =>
    exact exact_of_open ho hc (fun v => by simp) (by simp)
  | case5 es flat ho c hc _ a s h others hs _ ihStart ihStep =>
    obtain ⟨hstart, hstep, heval, heatoms⟩ := recurrence_exactIn hk
    obtain ⟨-, hstartVal, hstartAtoms⟩ := ihStart hstart
    obtain ⟨-, hstepVal, hstepAtoms⟩ := ihStep hstep
    obtain ⟨hprod, hmem, hothers⟩ := splitRecur?_exact hs
    have hpart : ∀ t : SymExpr, t.atoms ⊆ (recur a s h).atoms → ∀ x ∈ (others ++ [const c, t]).flatMap atoms,
        x ∈ (flat.filter (!·.isConst)).flatMap atoms := by
      intro t ht x hx
      rw [List.flatMap_append, List.mem_append] at hx
      rcases hx with hx | hx
      · obtain ⟨e, he, hx⟩ := List.mem_flatMap.mp hx
        exact List.mem_flatMap.mpr ⟨e, hothers e he, hx⟩
      · exact List.mem_flatMap.mpr ⟨_, hmem, ht (by simpa using hx)⟩
    refine exact_of_open ho hc (fun v => ?_) fun x hx => ?_
    · rw [heval, hstartVal, hstepVal, hprod]
      simp only [List.map_append, List.map_cons, List.map_nil, List.prod_append, List.prod_cons, List.prod_nil, evalIn_const]
      ring
    · rcases List.mem_cons.mp (heatoms hx) with rfl | hx
      · exact List.mem_flatMap.mpr ⟨_, hmem, by simp⟩
      · rcases List.mem_append.mp hx with hx | hx
        · exact hpart a (by simp) x (hstartAtoms hx)
        · exact hpart s (by simp) x (hstepAtoms hx)
  | case6 es flat ho c hc _ _ hf =>
    exact exact_of_open ho hc (fun v => by simp [hf]) (by simp)
  | case7 es flat ho c hc _ _ terms hf ih =>
    obtain ⟨hparts, hval, hatoms⟩ := sum_exactIn hk
    have hterm := fun t : { x // x ∈ terms } => ih t (hparts _ (List.mem_map_of_mem (List.mem_attach terms t)))
    refine exact_of_open ho hc (fun v => ?_) fun x hx => ?_
    · have hscaled : terms.attach.map (fun t => evalIn v (product [const c, t.1])) = terms.map fun t => c.toInt * evalIn v t := by
        rw [← List.attach_map_val (l := terms)]
        exact List.map_congr_left fun t _ => by simp [(hterm t).2.1 v]
      rw [hval, List.map_map, hf]
      simp only [Function.comp_def, hscaled, List.sum_map_mul_left, List.map_cons, List.map_nil, List.prod_cons, List.prod_nil,
        evalIn_add, mul_one]
    · obtain ⟨e, he, hx⟩ := List.mem_flatMap.mp (hatoms hx)
      obtain ⟨t, -, rfl⟩ := List.mem_map.mp he
      have hx : x ∈ t.1.atoms := by simpa using (hterm t).2.2 hx
      rw [hf]
      simpa using ⟨t.1, t.2, hx⟩
  | case8 es flat ho c hc _ _ e _ hf =>
    refine exact_of_open ho hc (fun v => by simp [hf, evalIn_scale]) fun x hx => ?_
    rw [hf]
    simpa using atoms_scale c e hx
  | case9 es flat ho c hc =>
    refine exact_of_open ho hc (fun v => ?_) fun x hx => ?_
    · rw [evalIn_scale, evalIn_mul, ((perm_sortBy le _).map (evalIn v)).prod_eq]
    · simpa using atoms_scale _ _ hx

/-! ## Differences -/

theorem plus_exactIn {a b : SymExpr} (hk : (a.plus b).isKnown = true) :
    a.isKnown = true ∧ b.isKnown = true ∧ (∀ v, evalIn v (a.plus b) = evalIn v a + evalIn v b) ∧
      (a.plus b).atoms ⊆ a.atoms ++ b.atoms := by
  obtain ⟨hknown, hval, hatoms⟩ := sum_exactIn hk
  exact ⟨hknown a (by simp), hknown b (by simp), fun v => (hval v).trans (by simp), by simpa [plus] using hatoms⟩

theorem times_exactIn {a b : SymExpr} (hk : (a.times b).isKnown = true) :
    a.isKnown = true ∧ b.isKnown = true ∧ (∀ v, evalIn v (a.times b) = evalIn v a * evalIn v b) ∧
      (a.times b).atoms ⊆ a.atoms ++ b.atoms := by
  obtain ⟨hknown, hval, hatoms⟩ := product_exactIn hk
  exact ⟨hknown a (by simp), hknown b (by simp), fun v => (hval v).trans (by simp), by simpa [times] using hatoms⟩

theorem negate_exactIn (hk : e.negate.isKnown = true) :
    e.isKnown = true ∧ (∀ v, evalIn v e.negate = -evalIn v e) ∧ e.negate.atoms ⊆ e.atoms := by
  obtain ⟨-, hknown, hval, hatoms⟩ := times_exactIn hk
  exact ⟨hknown, fun v => (hval v).trans (by simp), by simpa [negate] using hatoms⟩

theorem minus_exactIn {a b : SymExpr} (hk : (a.minus b).isKnown = true) :
    a.isKnown = true ∧ b.isKnown = true ∧ (∀ v, evalIn v (a.minus b) = evalIn v a - evalIn v b) ∧
      (a.minus b).atoms ⊆ a.atoms ++ b.atoms := by
  obtain ⟨ha, hb, hval, hatoms⟩ := plus_exactIn hk
  obtain ⟨hb, hbval, hbatoms⟩ := negate_exactIn hb
  refine ⟨ha, hb, fun v => by rw [minus, hval, hbval, sub_eq_add_neg], fun x hx => ?_⟩
  exact (List.mem_append.mp (hatoms hx)).elim (List.mem_append_left _) fun hx => List.mem_append_right _ (hbatoms hx)

/-- Expressions with a constant difference are that far apart whatever they are read in. -/
theorem evalIn_eq_add_of_minus {a b : SymExpr} {d : Word} (h : (a.minus b).const? = some d) (v : Valuation) :
    evalIn v a = evalIn v b + d.toInt := by
  have hconst := eq_const_of_const? h
  obtain ⟨-, -, hval, -⟩ := minus_exactIn (a := a) (b := b) (by rw [hconst]; rfl)
  have hdiff := hval v
  rw [hconst, evalIn_const] at hdiff
  omega

/-! ## Quotients -/

theorem atoms_quotient (a b : SymExpr) : (a.quotient b).atoms ⊆ a.atoms ++ b.atoms := by
  unfold quotient
  split
  · exact List.nil_subset _
  · split
    · exact List.nil_subset _
    · exact List.subset_append_left _ _
    · rename_i m n _ _ _ _
      cases Word.quot? m n <;> exact List.nil_subset _
    · rw [atoms]
      exact List.Subset.refl _

theorem quotient_exactIn {a b : SymExpr} (hk : (a.quotient b).isKnown = true) :
    a.isKnown = true ∧ b.isKnown = true ∧ ∀ v, evalIn v (a.quotient b) = evalIn v a / evalIn v b := by
  unfold quotient at hk ⊢
  split at hk
  · cases hk
  · rename_i hparts
    rw [if_neg hparts]
    simp only [Bool.or_eq_true, Bool.not_eq_true', not_or, Bool.not_eq_false] at hparts
    refine ⟨hparts.1, hparts.2, fun v => ?_⟩
    split at hk
    · cases hk
    · rename_i hb
      rw [eq_const_of_const? hb]
      exact (Int.ediv_one _).symm
    · rename_i m n _ _ ha hb
      rw [eq_const_of_const? ha, eq_const_of_const? hb]
      cases hq : Word.quot? m n with
      | none => simp [hq, isKnown] at hk
      | some q =>
        unfold Word.quot? at hq
        split at hq
        · cases hq
        · simp [toInt_of_ofInt? hq]
    · rfl

/-! ## Rebased expressions -/

theorem isKnown_of_rebase (e : SymExpr) {old new : BlockId} (h : (e.rebase old new).isKnown = true) : e.isKnown = true := by
  cases e with
  | unknown => exact h
  | _ => rfl

mutual

/-- A rebased expression counts the rounds of the new loop where the expression counts those of the old one. -/
theorem evalIn_rebase (v : Valuation) (old new : BlockId) :
    (e : SymExpr) → evalIn v (e.rebase old new) = evalIn (v.inRound old (v.rounds new)) e
  | const _ | leaf _ | unknown => rfl
  | add ts => congrArg List.sum (evalsIn_rebaseList v old new ts)
  | mul fs => congrArg List.prod (evalsIn_rebaseList v old new fs)
  | quot a b => by rw [rebase, evalIn, evalIn, evalIn_rebase v old new a, evalIn_rebase v old new b]
  | recur a s h => by
    have hcount : v.rounds (if h = old then new else h) = (v.inRound old (v.rounds new)).rounds h := by
      by_cases hh : h = old <;> simp [Valuation.inRound, hh]
    rw [rebase, evalIn_recur, evalIn_recur, hcount, evalIn_rebase v old new a, evalIn_rebase v old new s]

theorem evalsIn_rebaseList (v : Valuation) (old new : BlockId) :
    (es : List SymExpr) → evalsIn v (rebaseList old new es) = evalsIn (v.inRound old (v.rounds new)) es
  | [] => rfl
  | e :: es => by rw [rebaseList, evalsIn, evalsIn, evalIn_rebase v old new e, evalsIn_rebaseList v old new es]

end

end SymExpr

end SsaFusion
