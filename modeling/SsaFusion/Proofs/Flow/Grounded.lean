import Mathlib.Data.Finset.Card
import Mathlib.Data.Finset.Filter
import SsaFusion.Proofs.Flow.Paths

/-!
# Nodes that lead to no circle

A recursion over a graph ends at a node from which no path goes on for ever (`Grounded`). How deep it goes is bounded by the
number of nodes that the node leads to, which a step makes smaller (`height_lt`).
-/

namespace SsaFusion

variable {ν : Type} {next next' : ν → List ν} {a b : ν}

/-- No path from a node goes on for ever. -/
def Grounded (next : ν → List ν) (a : ν) : Prop := Acc (fun b c => b ∈ next c) a

theorem grounded_iff : Grounded next a ↔ ∀ b ∈ next a, Grounded next b :=
  ⟨fun h _ => h.inv, fun h => Acc.intro a h⟩

namespace Grounded

/-- No step of a grounded node leads back to it. -/
theorem not_reaches (h : Grounded next a) {ok : ν → Prop} (hb : b ∈ next a) : ¬Reaches next ok b a := by
  induction h generalizing b with
  | intro a _ ih =>
    intro hreach
    rcases hreach.cases_head with rfl | ⟨c, hc, hca⟩
    · exact ih b hb hb (.refl hreach.ok_start)
    · exact ih b hb hc (.tail hca hb hreach.ok_start)

end Grounded

section Height

open Classical

/-- The number of listed nodes that a node leads to, itself included. -/
noncomputable def height (next : ν → List ν) (nodes : List ν) (a : ν) : Nat :=
  (nodes.toFinset.filter fun b => Reaches next (fun _ => True) a b).card

variable {nodes : List ν}

theorem height_le : height next nodes a ≤ nodes.length :=
  Nat.le_trans (Finset.card_filter_le _ _) (List.toFinset_card_le _)

theorem height_le_of_fewer (hsub : ∀ c, ∀ b ∈ next' c, b ∈ next c) : height next' nodes a ≤ height next nodes a := by
  refine Finset.card_le_card fun b hb => ?_
  rw [Finset.mem_filter] at hb ⊢
  obtain ⟨hb, hreach⟩ := hb
  refine ⟨hb, ?_⟩
  clear hb
  induction hreach with
  | refl hok => exact .refl hok
  | tail _ hs hok ih => exact .tail ih (hsub _ _ hs) hok

theorem height_lt (h : Grounded next a) (ha : a ∈ nodes) (hb : b ∈ next a) :
    height next nodes b < height next nodes a := by
  refine Finset.card_lt_card (Finset.ssubset_iff_subset_ne.mpr ⟨fun c hc => ?_, fun heq => ?_⟩)
  · rw [Finset.mem_filter] at hc ⊢
    exact ⟨hc.1, .head trivial hb hc.2⟩
  · have hself : a ∈ nodes.toFinset.filter fun c => Reaches next (fun _ => True) a c :=
      Finset.mem_filter.mpr ⟨List.mem_toFinset.mpr ha, .refl trivial⟩
    rw [← heq] at hself
    exact h.not_reaches hb (Finset.mem_filter.mp hself).2

end Height

end SsaFusion
