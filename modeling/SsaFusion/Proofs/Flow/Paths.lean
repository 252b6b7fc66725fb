import Mathlib.Data.List.Basic
import Mathlib.Tactic.Common
import SsaFusion.Flow.Search

/-!
# Paths

A path is a list of nodes, each a step after the one before (`Path`). `Reaches next ok a b` says that a path leads from
`a` to `b` through nodes that satisfy `ok`, both ends included; it grows at its end, which is the direction in which
arguments about control flow go. The two notions agree (`reaches_iff_path`), and the search of a finite graph finds
exactly the nodes that a start reaches inside the universe (`mem_reach`).
-/

namespace SsaFusion

variable {ν : Type} {next : ν → List ν}

/-! ## Paths as lists of nodes -/

/-- The nodes of a path from one node to another, both ends included. -/
inductive Path {ν : Type} (next : ν → List ν) : ν → List ν → ν → Prop
  | single (a : ν) : Path next a [a] a
  | cons {a b c : ν} {p : List ν} : b ∈ next a → Path next b p c → Path next a (a :: p) c

namespace Path

variable {a b c : ν} {p q : List ν}

theorem start_mem (h : Path next a p b) : a ∈ p := by
  cases h <;> exact List.mem_cons_self

theorem head_eq (h : Path next a (b :: p) c) : b = a := by
  cases h <;> rfl

theorem end_mem (h : Path next a p b) : b ∈ p := by
  induction h with
  | single a => exact List.mem_singleton_self a
  | cons _ _ ih => exact List.mem_cons_of_mem _ ih

/-- A path goes on by a step. -/
theorem snoc (h : Path next a p b) (hs : c ∈ next b) : Path next a (p ++ [c]) c := by
  induction h with
  | single a => exact .cons hs (.single c)
  | cons hb _ ih => exact .cons hb (ih hs)

/-- A path leads to each of its nodes and goes on from there. -/
theorem split {w : List ν} (h : Path next a (p ++ b :: w) c) : Path next a (p ++ [b]) b ∧ Path next b (b :: w) c := by
  induction p generalizing a with
  | nil =>
    cases h with
    | single _ => exact ⟨.single _, .single _⟩
    | cons hb h => exact ⟨.single _, .cons hb h⟩
  | cons x rest ih =>
    rw [List.cons_append] at h
    generalize hq : rest ++ b :: w = q at h
    cases h with
    | single _ => simp at hq
    | cons hb h =>
      subst hq
      obtain ⟨h₁, h₂⟩ := ih h
      exact ⟨.cons hb h₁, h₂⟩

/-- Neighbours on a path are a step apart. -/
theorem step {x y : ν} {w : List ν} (h : Path next a (p ++ x :: y :: w) c) : y ∈ next x := by
  cases h.split.2 with
  | cons hy h =>
    cases h with
    | single _ => exact hy
    | cons _ _ => exact hy

end Path

/-! ## Reaching through nodes that satisfy a condition -/

/-- Steps lead from one node to another through nodes that satisfy a condition, both ends included. -/
inductive Reaches {ν : Type} (next : ν → List ν) (ok : ν → Prop) (a : ν) : ν → Prop
  | refl : ok a → Reaches next ok a a
  | tail {b c : ν} : Reaches next ok a b → c ∈ next b → ok c → Reaches next ok a c

namespace Reaches

variable {ok ok' : ν → Prop} {a b c : ν}

theorem ok_start (h : Reaches next ok a b) : ok a := by
  induction h with
  | refl h => exact h
  | tail _ _ _ ih => exact ih

theorem ok_end (h : Reaches next ok a b) : ok b := by
  cases h with
  | refl h => exact h
  | tail _ _ h => exact h

theorem mono (h : Reaches next ok a b) (hok : ∀ x, ok x → ok' x) : Reaches next ok' a b := by
  induction h with
  | refl h => exact .refl (hok _ h)
  | tail _ hs hc ih => exact .tail ih hs (hok _ hc)

/-- A condition that every node on the way satisfies anyway can be added. -/
theorem strengthen (h : Reaches next ok a b) (hok : ∀ x, Reaches next ok a x → ok' x) : Reaches next ok' a b := by
  induction h with
  | refl h => exact .refl (hok _ (.refl h))
  | tail h hs hc ih => exact .tail ih hs (hok _ (.tail h hs hc))

theorem trans (h : Reaches next ok a b) (h' : Reaches next ok b c) : Reaches next ok a c := by
  induction h' with
  | refl _ => exact h
  | tail _ hs hc ih => exact .tail ih hs hc

theorem head (ha : ok a) (hs : b ∈ next a) (h : Reaches next ok b c) : Reaches next ok a c :=
  trans (.tail (.refl ha) hs h.ok_start) h

/-- Either nothing was walked, or there was a first step. -/
theorem cases_head (h : Reaches next ok a c) : a = c ∨ ∃ b, b ∈ next a ∧ Reaches next ok b c := by
  induction h with
  | refl _ => exact Or.inl rfl
  | @tail b c h hs hc ih =>
    rcases ih with rfl | ⟨d, hd, hdb⟩
    · exact Or.inr ⟨c, hs, .refl hc⟩
    · exact Or.inr ⟨d, hd, .tail hdb hs hc⟩

/-- A way to another node arrives there for a first time. -/
theorem arrives (h : Reaches next ok a b) (hne : a ≠ b) : ∃ c, Reaches next (fun x => ok x ∧ x ≠ b) a c ∧ b ∈ next c := by
  have hfirst : ∀ {y}, Reaches next ok a y →
      Reaches next (fun x => ok x ∧ x ≠ b) a y ∨ ∃ c, Reaches next (fun x => ok x ∧ x ≠ b) a c ∧ b ∈ next c := by
    intro y hy
    induction hy with
    | refl ha => exact Or.inl (.refl ⟨ha, hne⟩)
    | @tail x y _ hs hok ih =>
      rcases ih with ih | ih
      · by_cases e : y = b
        · exact Or.inr ⟨x, ih, e ▸ hs⟩
        · exact Or.inl (.tail ih hs ⟨hok, e⟩)
      · exact Or.inr ih
  exact (hfirst h).resolve_left fun h => h.ok_end.2 rfl

end Reaches

/-- Reaching is the existence of a path. -/
theorem reaches_iff_path {ok : ν → Prop} {a b : ν} :
    Reaches next ok a b ↔ ∃ p, Path next a p b ∧ ∀ x ∈ p, ok x := by
  constructor
  · intro h
    induction h with
    | refl h => exact ⟨[a], .single a, by simpa using h⟩
    | tail _ hs hc ih =>
      obtain ⟨p, hp, hok⟩ := ih
      refine ⟨_, hp.snoc hs, fun x hx => ?_⟩
      rcases List.mem_append.mp hx with h | h
      · exact hok x h
      · rw [List.mem_singleton.mp h]; exact hc
  · rintro ⟨p, hp, hok⟩
    induction hp with
    | single a => exact .refl (hok a (by simp))
    | cons hb _ ih => exact .head (hok _ (by simp)) hb (ih fun x hx => hok x (List.mem_cons_of_mem _ hx))

/-! ## The search of a finite graph -/

section Search

variable {next : Nat → List Nat}

/-- Steps inside a universe lead from a frontier to a node. -/
inductive Leads (next : Nat → List Nat) (within frontier : List Nat) : Nat → Prop
  | first {y x : Nat} : y ∈ frontier → x ∈ next y → x ∈ within → Leads next within frontier x
  | more {y x : Nat} : Leads next within frontier y → x ∈ next y → x ∈ within → Leads next within frontier x

variable {left frontier : List Nat}

/-- One round of a search splits the nodes ahead: those a step away are found, and the others are led to from these
through nodes not found yet. -/
theorem leads_round {x : Nat} :
    Leads next left frontier x ↔
      x ∈ left.filter ((frontier.flatMap next).contains ·) ∨
        Leads next (left.filter (!(frontier.flatMap next).contains ·))
          (left.filter ((frontier.flatMap next).contains ·)) x := by
  constructor
  · intro h
    induction h with
    | @first y x hy hx hl => exact Or.inl (by simpa [hl] using ⟨y, hy, hx⟩)
    | @more y x _ hx hl ih =>
      by_cases ha : x ∈ frontier.flatMap next
      · exact Or.inl (by simpa [hl] using ha)
      · have hl' : x ∈ left.filter (!(frontier.flatMap next).contains ·) := by simpa [hl] using ha
        rcases ih with hy | hy
        · exact Or.inr (.first hy hx hl')
        · exact Or.inr (.more hy hx hl')
  · have found : ∀ y ∈ left.filter ((frontier.flatMap next).contains ·), Leads next left frontier y := by
      intro y hy
      simp only [List.mem_filter, List.contains_iff_mem, List.mem_flatMap] at hy
      obtain ⟨hl, z, hz, hyz⟩ := hy
      exact .first hz hyz hl
    rintro (h | h)
    · exact found x h
    · induction h with
      | first hy hx hl => exact .more (found _ hy) hx ((List.mem_filter.mp hl).1)
      | more _ hx hl ih => exact .more ih hx ((List.mem_filter.mp hl).1)

theorem mem_spread : ∀ {k : Nat} {left frontier : List Nat} {x : Nat}, left.length ≤ k →
    (x ∈ spread next k left frontier ↔ Leads next left frontier x)
  | 0, left, frontier, x, hk => by
    have hl : left = [] := List.eq_nil_of_length_eq_zero (Nat.le_zero.mp hk)
    subst hl
    simp only [spread, List.not_mem_nil, false_iff]
    intro h
    cases h with
    | first _ _ hl => cases hl
    | more _ _ hl => cases hl
  | k + 1, left, frontier, x, hk => by
    rw [leads_round]
    unfold spread
    simp only
    split
    · rename_i he
      have he := List.isEmpty_iff.mp he
      simp only [List.not_mem_nil, false_iff]
      rw [he]
      rintro (h | h)
      · cases h
      · induction h with
        | first hy _ _ => cases hy
        | more _ _ _ ih => exact ih
    · rename_i he
      rw [List.mem_append, mem_spread]
      -- a round that finds a node leaves fewer nodes to find
      obtain ⟨y, hy⟩ := List.exists_mem_of_ne_nil _ (fun h => he (List.isEmpty_iff.mpr h))
      have hlt : (left.filter (!(frontier.flatMap next).contains ·)).length < left.length := by
        refine List.length_filter_lt_length_iff_exists.mpr ⟨y, (List.mem_filter.mp hy).1, ?_⟩
        simpa using (List.mem_filter.mp hy).2
      omega

/-- The search finds the nodes that a start reaches inside the universe. -/
theorem mem_reach {within starts : List Nat} {x : Nat} :
    x ∈ reach next within starts ↔ ∃ s ∈ starts, Reaches next (· ∈ within) s x := by
  unfold reach
  simp only [List.mem_append]
  rw [mem_spread (List.length_filter_le _ _)]
  constructor
  · rintro (h | h)
    · simp only [List.mem_filter, List.contains_iff_mem] at h
      exact ⟨x, h.2, .refl h.1⟩
    · induction h with
      | first hy hx hl =>
        simp only [List.mem_filter, List.contains_iff_mem] at hy
        exact ⟨_, hy.2, .tail (.refl hy.1) hx ((List.mem_filter.mp hl).1)⟩
      | more _ hx hl ih =>
        obtain ⟨s, hs, h⟩ := ih
        exact ⟨s, hs, .tail h hx ((List.mem_filter.mp hl).1)⟩
  · rintro ⟨s, hs, h⟩
    induction h with
    | refl hw => exact Or.inl (by simpa using ⟨hw, hs⟩)
    | @tail b c _ hc hw ih =>
      by_cases hcs : c ∈ starts
      · exact Or.inl (by simpa using ⟨hw, hcs⟩)
      · have hw' : c ∈ within.filter (!starts.contains ·) := by simpa using ⟨hw, hcs⟩
        rcases ih with h | h
        · exact Or.inr (.first h hc hw')
        · exact Or.inr (.more h hc hw')

end Search

end SsaFusion
