import Mathlib.Data.List.Nodup
import Mathlib.Tactic.Common
import SsaFusion.Data.Table

/-!
# Tables after several bindings

What `insertAll` binds: a key outside the list keeps its value, and a key that the list binds once gets the value it is
listed with. Bindings that are made one by one list every key once (`nodup_put`), and then looking a key up and finding it in
the list are the same (`lookup_eq_some_iff`).
-/

namespace SsaFusion.Table

variable {κ α : Type} [DecidableEq κ] {t : Table κ α} {bs : List (κ × α)} {x : κ} {a : α}

theorem insertAll_cons (b : κ × α) : t.insertAll (b :: bs) = (t.insert b.1 b.2).insertAll bs := rfl

theorem get?_insertAll_of_not_mem (h : x ∉ bs.map Prod.fst) : (t.insertAll bs).get? x = t.get? x := by
  induction bs generalizing t with
  | nil => rfl
  | cons b rest ih =>
    rw [List.map_cons, List.mem_cons, not_or] at h
    rw [insertAll_cons, ih h.2, get?_insert, if_neg (Ne.symm h.1)]

theorem get?_insertAll_of_mem (hn : (bs.map Prod.fst).Nodup) (h : (x, a) ∈ bs) :
    (t.insertAll bs).get? x = some a := by
  induction bs generalizing t with
  | nil => cases h
  | cons b rest ih =>
    rw [List.map_cons, List.nodup_cons] at hn
    rw [insertAll_cons]
    rcases List.mem_cons.mp h with rfl | h
    · rw [get?_insertAll_of_not_mem hn.1, get?_insert, if_pos rfl]
    · exact ih hn.2 h

/-- Where a binding of the resulting table comes from. -/
theorem mem_or_get?_of_insertAll (h : (t.insertAll bs).get? x = some a) : (x, a) ∈ bs ∨ t.get? x = some a := by
  induction bs generalizing t with
  | nil => exact Or.inr h
  | cons b rest ih =>
    rw [insertAll_cons] at h
    rcases ih h with h | h
    · exact Or.inl (List.mem_cons_of_mem _ h)
    · rw [get?_insert] at h
      split at h
      · rename_i e
        cases h
        exact Or.inl (e ▸ List.mem_cons_self ..)
      · exact Or.inr h

theorem get?_insertAll_isSome (h : x ∈ bs.map Prod.fst ∨ ∃ a, t.get? x = some a) :
    ∃ a, (t.insertAll bs).get? x = some a := by
  induction bs generalizing t with
  | nil => exact h.resolve_left (by simp)
  | cons b rest ih =>
    rw [insertAll_cons]
    refine ih ?_
    by_cases e : b.1 = x
    · exact Or.inr ⟨b.2, by rw [get?_insert, if_pos e]⟩
    · rw [get?_insert, if_neg e]
      refine h.imp_left fun h => ?_
      exact (List.mem_cons.mp h).resolve_left (Ne.symm e)

theorem mem_entries_of_get? {t : Table κ α} (h : t.get? x = some a) : (x, a) ∈ t.entries := by
  obtain ⟨es⟩ := t
  simp only [get?] at h
  induction es with
  | nil => cases h
  | cons e rest ih => grind [lookup]

theorem lookup_eq_none (h : x ∉ bs.map Prod.fst) : lookup x bs = none := by
  induction bs with
  | nil => rfl
  | cons b rest ih =>
    rw [List.map_cons, List.mem_cons, not_or] at h
    rw [lookup, if_neg (Ne.symm h.1), ih h.2]

/-- In a list that binds every key once, a key has the value it is listed with. -/
theorem lookup_eq_some_iff (hn : (bs.map Prod.fst).Nodup) : lookup x bs = some a ↔ (x, a) ∈ bs := by
  induction bs with
  | nil => simp [lookup]
  | cons b rest ih =>
    obtain ⟨k, c⟩ := b
    rw [List.map_cons, List.nodup_cons] at hn
    rw [lookup, List.mem_cons, ← ih hn.2]
    split
    · rename_i e
      subst e
      simp [lookup_eq_none hn.1, eq_comm]
    · rename_i e
      simp [Ne.symm e]

theorem mem_keys_put {y : κ} (h : y ∈ (put x a bs).map Prod.fst) : y = x ∨ y ∈ bs.map Prod.fst := by
  induction bs with
  | nil => exact Or.inl (by simpa [put] using h)
  | cons b rest ih =>
    unfold put at h
    split at h
    · exact (List.mem_cons.mp h).imp_right (List.mem_cons_of_mem _)
    · exact (List.mem_cons.mp h).elim (fun e => Or.inr (e ▸ List.mem_cons_self ..)) fun h =>
        (ih h).imp_right (List.mem_cons_of_mem _)

/-- Binding a key keeps every key bound once. -/
theorem nodup_put (hn : (bs.map Prod.fst).Nodup) : ((put x a bs).map Prod.fst).Nodup := by
  induction bs with
  | nil => simp [put]
  | cons b rest ih =>
    rw [List.map_cons, List.nodup_cons] at hn
    unfold put
    split
    · rename_i e
      exact List.nodup_cons.mpr ⟨e ▸ hn.1, hn.2⟩
    · rename_i e
      exact List.nodup_cons.mpr ⟨fun h => (mem_keys_put h).elim e hn.1, ih hn.2⟩

end SsaFusion.Table
