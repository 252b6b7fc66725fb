/-!
# Stable sorting by insertion

`sortBy le` keeps elements that `le` cannot tell apart in their old order. Identifiers are shown sorted and without
repetition through `distinct`.
-/

namespace SsaFusion

variable {α : Type}

/-- Inserts an element in front of the first element that it does not exceed. -/
def insertBy (le : α → α → Bool) (a : α) : List α → List α
  | [] => [a]
  | b :: rest => if le a b then a :: b :: rest else b :: insertBy le a rest

/-- The stable sorted form of a list. -/
def sortBy (le : α → α → Bool) : List α → List α
  | [] => []
  | a :: rest => insertBy le a (sortBy le rest)

/-- A list of numbers in ascending order. -/
def ascending (ns : List Nat) : List Nat := sortBy (fun a b => decide (a ≤ b)) ns

/-- The numbers of a list in ascending order, each once. -/
def distinct (ns : List Nat) : List Nat := ascending ns.eraseDups

theorem perm_insertBy (le : α → α → Bool) (a : α) (l : List α) : (insertBy le a l).Perm (a :: l) := by
  induction l with
  | nil => exact .refl _
  | cons b rest ih =>
    unfold insertBy
    split
    · exact .refl _
    · exact (ih.cons b).trans (.swap a b rest)

theorem perm_sortBy (le : α → α → Bool) (l : List α) : (sortBy le l).Perm l := by
  induction l with
  | nil => exact .refl _
  | cons a rest ih => exact (perm_insertBy le a _).trans (ih.cons a)

@[simp] theorem mem_insertBy {le : α → α → Bool} {a x : α} {l : List α} : x ∈ insertBy le a l ↔ x = a ∨ x ∈ l :=
  (perm_insertBy le a l).mem_iff.trans List.mem_cons

@[simp] theorem mem_sortBy {le : α → α → Bool} {x : α} {l : List α} : x ∈ sortBy le l ↔ x ∈ l := (perm_sortBy le l).mem_iff

/-- A list sorted by a total order is in that order. -/
theorem sortBy_pairwise (le : α → α → Bool) (trans : ∀ a b c, le a b → le b c → le a c)
    (total : ∀ a b, le a b ∨ le b a) (l : List α) : (sortBy le l).Pairwise fun a b => le a b := by
  have insert : ∀ (a : α) (l : List α), l.Pairwise (fun a b => le a b) → (insertBy le a l).Pairwise fun a b => le a b := by
    intro a l hl
    induction l with
    | nil => exact List.pairwise_singleton ..
    | cons b rest ih =>
      obtain ⟨hb, hrest⟩ := List.pairwise_cons.mp hl
      unfold insertBy
      split
      · rename_i hab
        refine List.pairwise_cons.mpr ⟨fun x hx => ?_, hl⟩
        rcases List.mem_cons.mp hx with rfl | hx
        · exact hab
        · exact trans a b x hab (hb x hx)
      · rename_i hab
        refine List.pairwise_cons.mpr ⟨fun x hx => ?_, ih hrest⟩
        rcases mem_insertBy.mp hx with rfl | hx
        · exact (total b x).resolve_right hab
        · exact hb x hx
  induction l with
  | nil => exact .nil
  | cons a rest ih => exact insert a _ ih

@[simp] theorem mem_ascending {x : Nat} {l : List Nat} : x ∈ ascending l ↔ x ∈ l := mem_sortBy

end SsaFusion
