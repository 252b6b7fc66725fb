import SsaFusion.Symbolic.Normal

/-!
# The order of expressions

Expressions are compared as sequences of numbers are: `key` writes an expression down as its kind followed by its parts, and
`cmp` is the lexicographic comparison of keys (`cmp_eq_lex`). The order is total, and expressions that are not told
apart are the same tree (`eq_of_cmp_eq`), so a sorted list depends only on what is in it (`sortBy_eq_of_perm`).
-/

namespace SsaFusion

namespace SymExpr

mutual

/-- The numbers by which an expression is compared, the kind in front. -/
def key : SymExpr → List Int
  | const n => [0, n.toInt]
  | leaf v => [1, v]
  | add ts => 2 :: keys ts
  | mul fs => 3 :: keys fs
  | quot a b => 4 :: (key a ++ key b)
  | recur a s h => 5 :: (key a ++ (key s ++ [(h : Int)]))
  | unknown => [6]

/-- The keys of the expressions of a list, and an end that comes before every kind. -/
def keys : List SymExpr → List Int
  | [] => [-1]
  | e :: es => key e ++ keys es

end

/-- The comparison of sequences of numbers. -/
abbrev lex : List Int → List Int → Ordering := List.compareLex compare

theorem compare_natCast (m n : Nat) : compare (m : Int) (n : Int) = compare m n := by
  simp only [compare, compareOfLessAndEq, Int.ofNat_lt, Int.natCast_inj]

mutual

/-- Keys end by themselves: what follows them counts only when the expressions are equal. -/
theorem lex_key_append : (a b : SymExpr) → (u w : List Int) → lex (key a ++ u) (key b ++ w) = (cmp a b).then (lex u w)
  | const m, b, u, w => by
    cases b with
    | const n => simp [key, cmp, List.compareLex_cons_cons]
    | _ => rfl
  | leaf x, b, u, w => by
    cases b with
    | leaf y => simp [key, cmp, List.compareLex_cons_cons, compare_natCast]
    | _ => rfl
  | add ts, b, u, w => by
    cases b with
    | add ts' => simp [key, cmp, List.compareLex_cons_cons, lex_keys_append ts]
    | _ => rfl
  | mul fs, b, u, w => by
    cases b with
    | mul fs' => simp [key, cmp, List.compareLex_cons_cons, lex_keys_append fs]
    | _ => rfl
  | quot a b, c, u, w => by
    cases c with
    | quot a' b' => simp [key, cmp, List.compareLex_cons_cons, lex_key_append a, lex_key_append b, Ordering.then_assoc]
    | _ => rfl
  | recur a s h, c, u, w => by
    cases c with
    | recur a' s' h' =>
      simp [key, cmp, List.compareLex_cons_cons, lex_key_append a, lex_key_append s, Ordering.then_assoc, compare_natCast]
    | _ => rfl
  | unknown, b, u, w => by
    cases b with
    | unknown => simp [key, cmp, List.compareLex_cons_cons]
    | _ => rfl

theorem lex_keys_append : (as bs : List SymExpr) → (u w : List Int) →
    lex (keys as ++ u) (keys bs ++ w) = (cmpList as bs).then (lex u w)
  | [], [], u, w => by simp [keys, cmpList, List.compareLex_cons_cons]
  | [], b :: bs, u, w => by cases b <;> rfl
  | a :: as, [], u, w => by cases a <;> rfl
  | a :: as, b :: bs, u, w => by simp [keys, cmpList, lex_key_append a, lex_keys_append as, Ordering.then_assoc]

end

theorem cmp_eq_lex (a b : SymExpr) : cmp a b = lex (key a) (key b) := by
  simpa [List.compareLex_nil_nil] using (lex_key_append a b [] []).symm

mutual

/-- Expressions that the order does not tell apart are equal. -/
theorem eq_of_cmp_eq : (a b : SymExpr) → cmp a b = .eq → a = b
  | const m, b, h => by
    cases b with
    | const n => simpa [cmp, Int64.toInt_inj] using h
    | _ => cases h
  | leaf x, b, h => by
    cases b with
    | leaf y => simpa [cmp] using h
    | _ => cases h
  | add ts, b, h => by
    cases b with
    | add ts' => rw [eq_of_cmpList_eq ts ts' h]
    | _ => cases h
  | mul fs, b, h => by
    cases b with
    | mul fs' => rw [eq_of_cmpList_eq fs fs' h]
    | _ => cases h
  | quot a b, c, h => by
    cases c with
    | quot a' b' =>
      rw [cmp, Ordering.then_eq_eq] at h
      rw [eq_of_cmp_eq a a' h.1, eq_of_cmp_eq b b' h.2]
    | _ => cases h
  | recur a s k, c, h => by
    cases c with
    | recur a' s' k' =>
      rw [cmp, Ordering.then_eq_eq, Ordering.then_eq_eq] at h
      rw [eq_of_cmp_eq a a' h.1.1, eq_of_cmp_eq s s' h.1.2, Nat.compare_eq_eq.mp h.2]
    | _ => cases h
  | unknown, b, h => by
    cases b with
    | unknown => rfl
    | _ => cases h

theorem eq_of_cmpList_eq : (as bs : List SymExpr) → cmpList as bs = .eq → as = bs
  | [], bs, h => by
    cases bs with
    | nil => rfl
    | cons => cases h
  | a :: as, bs, h => by
    cases bs with
    | nil => cases h
    | cons b bs =>
      rw [cmpList, Ordering.then_eq_eq] at h
      rw [eq_of_cmp_eq a b h.1, eq_of_cmpList_eq as bs h.2]

end

/-! ## The order -/

theorem le_iff_lex {a b : SymExpr} : le a b = true ↔ (lex (key a) (key b)).isLE = true := by
  rw [le, cmp_eq_lex]
  cases lex (key a) (key b) <;> decide

theorem le_trans (a b c : SymExpr) (hab : le a b = true) (hbc : le b c = true) : le a c = true := by
  rw [le_iff_lex] at hab hbc ⊢
  exact Std.TransCmp.isLE_trans hab hbc

theorem le_total (a b : SymExpr) : le a b = true ∨ le b a = true := by
  have hswap : lex (key b) (key a) = (lex (key a) (key b)).swap := Std.OrientedCmp.eq_swap
  rw [le_iff_lex, le_iff_lex, hswap]
  cases lex (key a) (key b) <;> decide

theorem le_antisymm {a b : SymExpr} (hab : le a b = true) (hba : le b a = true) : a = b := by
  refine eq_of_cmp_eq a b ?_
  rw [le_iff_lex] at hab hba
  rw [cmp_eq_lex]
  exact Std.OrientedCmp.isLE_antisymm hab hba

/-- Sorting gives the same list whatever order the expressions come in. -/
theorem sortBy_eq_of_perm {as bs : List SymExpr} (h : as.Perm bs) : sortBy le as = sortBy le bs := by
  refine List.Perm.eq_of_pairwise (fun a b _ _ => le_antisymm) (sortBy_pairwise le le_trans le_total as)
    (sortBy_pairwise le le_trans le_total bs) ?_
  exact (perm_sortBy le as).trans (h.trans (perm_sortBy le bs).symm)

end SymExpr

end SsaFusion
