import Mathlib.Tactic.Common

/-!
# Computations that end well

A chain of checks or steps ends well if each of them does, and fails with its first link that fails. These laws take such a
chain apart, one link at a time.
-/

namespace SsaFusion

variable {ε α β : Type} {c : Prop} [Decidable c]

theorem ok_bind (a : α) (k : α → Except ε β) : Except.ok a >>= k = k a := rfl

theorem bind_eq_ok {x : Except ε α} {k : α → Except ε β} {b : β} (h : x >>= k = .ok b) :
    ∃ a, x = .ok a ∧ k a = .ok b := by
  cases x with
  | error e => cases h
  | ok a => exact ⟨a, rfl, h⟩

theorem bind_eq_error {x : Except ε α} {k : α → Except ε β} {e : ε} (h : x >>= k = .error e) :
    x = .error e ∨ ∃ a, x = .ok a ∧ k a = .error e := by
  cases x with
  | error e' =>
    cases h
    exact Or.inl rfl
  | ok a => exact Or.inr ⟨a, rfl, h⟩

/-- Two computations fail alike, or end well with results that are related. -/
def Alike (R : α → β → Prop) : Except ε α → Except ε β → Prop
  | .ok a, .ok b => R a b
  | .error e, .error e' => e = e'
  | _, _ => False

namespace Alike

variable {R : α → β → Prop} {x : Except ε α} {y : Except ε β}

/-- What comes behind the same computation. -/
theorem bind {γ : Type} (z : Except ε γ) {k : γ → Except ε α} {k' : γ → Except ε β} (h : ∀ c, Alike R (k c) (k' c)) :
    Alike R (z >>= k) (z >>= k') := by
  cases z with
  | error e => exact rfl
  | ok c => exact h c

theorem ok (h : Alike R x y) {a : α} (hx : x = .ok a) : ∃ b, y = .ok b ∧ R a b := by
  subst hx
  cases y with
  | error e => cases h
  | ok b => exact ⟨b, rfl, h⟩

theorem error (h : Alike R x y) {e : ε} (hx : x = .error e) : y = .error e := by
  subst hx
  cases y with
  | error e' => exact congrArg _ (Eq.symm h)
  | ok b => cases h

end Alike

/-- A check that is only made under a condition. -/
theorem ite_bind_eq_ok {x : Except ε Unit} {k : Unit → Except ε β} {b : β}
    (h : (if c then x >>= k else k ()) = .ok b) : (c → x = .ok ()) ∧ k () = .ok b := by
  split at h
  · rename_i hc
    obtain ⟨_, hx, hk⟩ := bind_eq_ok h
    exact ⟨fun _ => hx, hk⟩
  · rename_i hc
    exact ⟨fun h => absurd h hc, h⟩

/-- A check that fails under a condition. -/
theorem error_bind_eq_ok {e : ε} {k : Unit → Except ε β} {b : β}
    (h : (if c then .error e >>= k else k ()) = .ok b) : ¬c ∧ k () = .ok b := by
  obtain ⟨hc, hk⟩ := ite_bind_eq_ok h
  exact ⟨fun h => (by cases hc h), hk⟩

/-- A step that is one of two, and what comes next. -/
theorem else_bind_eq_ok {x y : Except ε α} {k : α → Except ε β} {b : β}
    (h : (if c then x >>= k else y >>= k) = .ok b) : ∃ a, (if c then x else y) = .ok a ∧ k a = .ok b := by
  split at h
  · rw [if_pos ‹_›]
    exact bind_eq_ok h
  · rw [if_neg ‹_›]
    exact bind_eq_ok h

end SsaFusion
