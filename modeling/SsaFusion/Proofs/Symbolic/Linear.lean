import SsaFusion.Proofs.Data.Table
import SsaFusion.Proofs.Symbolic.Meaning
import SsaFusion.Proofs.Symbolic.Order

/-!
# Collecting terms

A term adds an amount to one part of a linear form: to the constant, or to the coefficient of a base. The parts determine the
canonical sum of a linear form (`toExpr_congr`). An overflow is noticed when it happens, so in general the order of terms
matters. It does not matter for two lists of terms in which every part occurs once: then a part is added to at most once
before its total is known, and there is an overflow exactly if some total is no word (`Lists.collect?_comm`).
-/

namespace SsaFusion

namespace Word

theorem add?_comm (a b : Word) : add? a b = add? b a := by rw [add?, add?, Int.add_comm]

theorem mul?_comm (a b : Word) : mul? a b = mul? b a := by rw [mul?, mul?, Int.mul_comm]

/-- Words are in range. -/
theorem ofInt?_toInt (a : Word) : ofInt? a.toInt = some a := by
  have hge := Int64.le_toInt a
  have hlt := Int64.toInt_lt a
  rw [ofInt?, if_pos (by simp only [greatest]; omega), Int64.ofInt_toInt]

@[simp] theorem zero_add? (a : Word) : add? 0 a = some a := by simpa [add?] using ofInt?_toInt a

@[simp] theorem add?_zero (a : Word) : add? a 0 = some a := by rw [add?_comm, zero_add?]

@[simp] theorem one_mul? (a : Word) : mul? 1 a = some a := by simpa [mul?] using ofInt?_toInt a

end Word

namespace SymExpr

/-- The part of a linear form that a term adds to: the constant, or the coefficient of a base. -/
def slot : SymExpr → Option SymExpr
  | const _ => none
  | e => some e.splitCoefficient.2

/-- What a term adds to its part. -/
def amount : SymExpr → Word
  | const n => n
  | e => e.splitCoefficient.1

namespace Linear

variable {l l' s : Linear} {e : SymExpr} {ts us : List SymExpr}

/-- The constant of a linear form, or the coefficient of a base. -/
def part (l : Linear) : Option SymExpr → Word
  | none => l.constant
  | some b => (l.coefficients.get? b).getD 0

/-- Every base has one coefficient. -/
def Once (l : Linear) : Prop := (l.coefficients.entries.map Prod.fst).Nodup

theorem part_of_mem (hl : l.Once) {b : SymExpr} {c : Word} (h : (b, c) ∈ l.coefficients.entries) : l.part (some b) = c := by
  rw [part, Table.get?, (Table.lookup_eq_some_iff hl).mpr h, Option.getD_some]

theorem mem_of_part (hl : l.Once) {b : SymExpr} (hne : l.part (some b) ≠ 0) : (b, l.part (some b)) ∈ l.coefficients.entries := by
  refine (Table.lookup_eq_some_iff hl).mp ?_
  rw [part, Table.get?] at hne ⊢
  cases hlook : Table.lookup b l.coefficients.entries with
  | none => exact absurd (by rw [hlook]; rfl) hne
  | some c => rfl

/-- The canonical sum of a linear form depends on its parts only. -/
theorem toExpr_congr (hl : l.Once) (hl' : l'.Once) (h : ∀ k, l.part k = l'.part k) : l.toExpr = l'.toExpr := by
  have hmem : ∀ {l l' : Linear}, l.Once → l'.Once → (∀ k, l.part k = l'.part k) → ∀ x : SymExpr × Word,
      x ∈ l.coefficients.entries ∧ x.2 ≠ 0 → x ∈ l'.coefficients.entries := by
    rintro l l' hl hl' h ⟨b, c⟩ ⟨hx, hne⟩
    have hpart := h (some b)
    rw [part_of_mem hl hx] at hpart
    have hx' := mem_of_part hl' (hpart ▸ hne)
    rwa [← hpart] at hx'
  have hperm : (l.coefficients.entries.filter (·.2 != 0)).Perm (l'.coefficients.entries.filter (·.2 != 0)) := by
    refine (List.perm_ext_iff_of_nodup (hl.of_map.filter _) (hl'.of_map.filter _)).mpr fun x => ?_
    simp only [List.mem_filter, bne_iff_ne]
    exact ⟨fun hx => ⟨hmem hl hl' h x hx, hx.2⟩, fun hx => ⟨hmem hl' hl (fun k => (h k).symm) x hx, hx.2⟩⟩
  have hterms : l.terms = l'.terms := by
    have hconst : l.constant = l'.constant := h none
    unfold terms
    rw [hconst]
    refine sortBy_eq_of_perm ?_
    split
    · exact hperm.map _
    · exact (hperm.map _).append_right _
  unfold toExpr
  rw [hterms]

theorem toExpr_constant (n : Word) : ({ constant := n } : Linear).toExpr = const n := by
  by_cases hn : n = 0 <;> simp [toExpr, terms, sortBy, insertBy, hn]

theorem toExpr_single {c : Word} (hc : c ≠ 0) (b : SymExpr) : ({ coefficients := ⟨[(b, c)]⟩ } : Linear).toExpr = scale c b := by
  simp [toExpr, terms, sortBy, insertBy, hc]

theorem scale_mem_terms {x : SymExpr × Word} (hx : x ∈ l.coefficients.entries) (hne : x.2 ≠ 0) : scale x.2 x.1 ∈ l.terms := by
  have hmem : scale x.2 x.1 ∈ (l.coefficients.entries.filter (·.2 != 0)).map fun x => scale x.2 x.1 :=
    List.mem_map.mpr ⟨x, List.mem_filter.mpr ⟨hx, bne_iff_ne.mpr hne⟩, rfl⟩
  rw [terms, mem_sortBy]
  split
  · exact hmem
  · exact List.mem_append_left _ hmem

theorem const_mem_terms (hne : l.constant ≠ 0) : const l.constant ∈ l.terms := by
  rw [terms, mem_sortBy, if_neg hne]
  exact List.mem_append_right _ (List.mem_singleton_self _)

/-! ## One term -/

theorem once_plus? (hl : l.Once) (h : l.plus? e = some l') : l'.Once := by
  unfold plus? at h
  split at h
  · obtain ⟨c, -, rfl⟩ := Option.map_eq_some_iff.mp h
    exact hl
  · obtain ⟨c, -, rfl⟩ := Option.map_eq_some_iff.mp h
    exact Table.nodup_put hl

theorem plus?_eq_some (h : l.plus? e = some l') :
    Word.add? (l.part e.slot) e.amount = some (l'.part e.slot) ∧ ∀ k, k ≠ e.slot → l'.part k = l.part k := by
  unfold plus? at h
  split at h
  · rename_i n
    obtain ⟨c, hc, rfl⟩ := Option.map_eq_some_iff.mp h
    refine ⟨hc, fun k hk => ?_⟩
    cases k with
    | none => exact absurd rfl hk
    | some b => rfl
  · rename_i hconst
    rw [slot.eq_2 e hconst, amount.eq_2 e hconst]
    generalize e.splitCoefficient = term at h
    obtain ⟨c₀, base⟩ := term
    obtain ⟨c, hc, rfl⟩ := Option.map_eq_some_iff.mp h
    refine ⟨?_, fun k hk => ?_⟩
    · rw [part, hc, part, Table.get?_insert, if_pos rfl, Option.getD_some]
    · cases k with
      | none => rfl
      | some b =>
        have hne : base ≠ b := fun h => hk (congrArg some h.symm)
        rw [part, part, Table.get?_insert, if_neg hne]

theorem plus?_eq_none (h : l.plus? e = none) : Word.add? (l.part e.slot) e.amount = none := by
  unfold plus? at h
  split at h
  · exact Option.map_eq_none_iff.mp h
  · rename_i hconst
    rw [slot.eq_2 e hconst, amount.eq_2 e hconst]
    exact Option.map_eq_none_iff.mp h

/-- A term brings in no base but its own. -/
theorem mem_plus? (h : l.plus? e = some l') {x : SymExpr × Word} (hx : x ∈ l'.coefficients.entries) :
    x ∈ l.coefficients.entries ∨ e.slot = some x.1 := by
  unfold plus? at h
  split at h
  · obtain ⟨c, -, rfl⟩ := Option.map_eq_some_iff.mp h
    exact Or.inl hx
  · rename_i hconst
    rw [slot.eq_2 e hconst]
    generalize e.splitCoefficient = term at h
    obtain ⟨c, -, rfl⟩ := Option.map_eq_some_iff.mp h
    rcases mem_put hx with rfl | hx
    · exact Or.inr rfl
    · exact Or.inl hx

/-! ## Terms that each add to a part of their own -/

theorem foldlM_eq_some (hn : (ts.map slot).Nodup) (h : ts.foldlM plus? l = some l') :
    (∀ t ∈ ts, Word.add? (l.part t.slot) t.amount = some (l'.part t.slot)) ∧
      ∀ k, k ∉ ts.map slot → l'.part k = l.part k := by
  induction ts generalizing l with
  | nil =>
    cases h
    exact ⟨fun t ht => (by cases ht), fun _ _ => rfl⟩
  | cons t rest ih =>
    rw [List.foldlM_cons, Option.bind_eq_bind, Option.bind_eq_some_iff] at h
    obtain ⟨l₁, h₁, h⟩ := h
    rw [List.map_cons, List.nodup_cons] at hn
    obtain ⟨hsum, hsame⟩ := plus?_eq_some h₁
    obtain ⟨hsums, hsames⟩ := ih hn.2 h
    refine ⟨List.forall_mem_cons.mpr ⟨?_, fun u hu => ?_⟩, fun k hk => ?_⟩
    · rw [hsames t.slot hn.1, hsum]
    · have hne : u.slot ≠ t.slot := fun heq => hn.1 (heq ▸ List.mem_map_of_mem hu)
      rw [← hsame u.slot hne, hsums u hu]
    · rw [List.map_cons, List.mem_cons, not_or] at hk
      rw [hsames k hk.2, hsame k hk.1]

theorem foldlM_eq_none (hn : (ts.map slot).Nodup) (h : ts.foldlM plus? l = none) :
    ∃ t ∈ ts, Word.add? (l.part t.slot) t.amount = none := by
  induction ts generalizing l with
  | nil => cases h
  | cons t rest ih =>
    rw [List.map_cons, List.nodup_cons] at hn
    rw [List.foldlM_cons] at h
    cases h₁ : l.plus? t with
    | none => exact ⟨t, List.mem_cons_self .., plus?_eq_none h₁⟩
    | some l₁ =>
      rw [h₁] at h
      obtain ⟨u, hu, hover⟩ := ih hn.2 h
      have hne : u.slot ≠ t.slot := fun heq => hn.1 (heq ▸ List.mem_map_of_mem hu)
      exact ⟨u, List.mem_cons_of_mem _ hu, by rw [← (plus?_eq_some h₁).2 u.slot hne, hover]⟩

theorem once_empty : Once {} := List.nodup_nil

theorem once_collect? (h : collect? ts = some l) : l.Once :=
  foldlM_induction once_empty (fun _ _ _ _ => once_plus?) h

theorem part_empty (k : Option SymExpr) : part {} k = 0 := by cases k <;> rfl

/-- The terms of a list are those of a linear form, one for every part that is not zero. -/
structure Lists (l : Linear) (ts : List SymExpr) : Prop where
  once : (ts.map slot).Nodup
  amount : ∀ t ∈ ts, l.part t.slot = t.amount
  rest : ∀ k, k ∉ ts.map slot → l.part k = 0

/-- The terms of a linear form are collected to its parts again. -/
theorem Lists.collect? (h : l.Lists ts) : ∃ s, collect? ts = some s ∧ ∀ k, s.part k = l.part k := by
  cases hs : Linear.collect? ts with
  | none =>
    obtain ⟨t, -, hover⟩ := foldlM_eq_none h.once hs
    simp [part_empty] at hover
  | some s =>
    obtain ⟨hsums, hsames⟩ := foldlM_eq_some h.once hs
    refine ⟨s, rfl, fun k => ?_⟩
    by_cases hk : k ∈ ts.map slot
    · obtain ⟨t, ht, rfl⟩ := List.mem_map.mp hk
      have hsum := hsums t ht
      rw [part_empty, Word.zero_add?] at hsum
      rw [h.amount t ht, Option.some.inj hsum]
    · rw [hsames k hk, h.rest k hk, part_empty]

/-- Collecting the terms of two linear forms adds them part by part. -/
theorem Lists.part_append (h : l.Lists ts) (h' : l'.Lists us) (hs : Linear.collect? (ts ++ us) = some s) (k : Option SymExpr) :
    Word.add? (l.part k) (l'.part k) = some (s.part k) := by
  obtain ⟨s₁, hs₁, hpart⟩ := h.collect?
  have hs : us.foldlM plus? s₁ = some s := by
    rw [Linear.collect?, List.foldlM_append] at hs
    rw [Linear.collect?] at hs₁
    rwa [hs₁] at hs
  obtain ⟨hsums, hsames⟩ := foldlM_eq_some h'.once hs
  by_cases hk : k ∈ us.map slot
  · obtain ⟨u, hu, rfl⟩ := List.mem_map.mp hk
    rw [h'.amount u hu, ← hpart, hsums u hu]
  · rw [h'.rest k hk, hsames k hk, hpart, Word.add?_zero]

/-- Collecting the terms of two linear forms fails only if the totals of some part do not add up to a word. -/
theorem Lists.overflow_append (h : l.Lists ts) (h' : l'.Lists us) (hs : Linear.collect? (ts ++ us) = none) :
    ∃ k, Word.add? (l.part k) (l'.part k) = none := by
  obtain ⟨s₁, hs₁, hpart⟩ := h.collect?
  have hs : us.foldlM plus? s₁ = none := by
    rw [Linear.collect?, List.foldlM_append] at hs
    rw [Linear.collect?] at hs₁
    rwa [hs₁] at hs
  obtain ⟨u, hu, hover⟩ := foldlM_eq_none h'.once hs
  exact ⟨u.slot, by rw [h'.amount u hu, ← hpart, hover]⟩

/-- **Two linear forms add up in either order**, to the same sum or to none. -/
theorem Lists.collect?_comm (h : l.Lists ts) (h' : l'.Lists us) :
    (Linear.collect? (ts ++ us)).map toExpr = (Linear.collect? (us ++ ts)).map toExpr := by
  have clash : ∀ {l l' : Linear} {ts us : List SymExpr}, l.Lists ts → l'.Lists us → Linear.collect? (ts ++ us) = none →
      Linear.collect? (us ++ ts) = none := by
    intro l l' ts us h h' hs
    obtain ⟨k, hover⟩ := h.overflow_append h' hs
    refine Option.eq_none_iff_forall_ne_some.mpr fun s' hs' => ?_
    rw [Word.add?_comm, h'.part_append h hs' k] at hover
    cases hover
  cases hs : Linear.collect? (ts ++ us) with
  | none => rw [clash h h' hs]
  | some s =>
    cases hs' : Linear.collect? (us ++ ts) with
    | none =>
      rw [clash h' h hs'] at hs
      cases hs
    | some s' =>
      refine congrArg some (toExpr_congr (once_collect? hs) (once_collect? hs') fun k => Option.some.inj ?_)
      rw [← h.part_append h' hs k, ← h'.part_append h hs' k, Word.add?_comm]

end Linear

end SymExpr

end SsaFusion
