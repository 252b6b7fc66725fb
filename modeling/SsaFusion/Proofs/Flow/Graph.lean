import SsaFusion.Flow.Graph
import SsaFusion.Proofs.Flow.Paths

/-!
# The flow graph of a function

What the lists of successors, predecessors and reachable places hold. A place is live if a path leads to it from the
entry; `mem_reachable` says that the search finds exactly the live places.
-/

namespace SsaFusion

@[simp] theorem mem_distinct {x : Nat} {l : List Nat} : x ∈ distinct l ↔ x ∈ l := by
  simp [distinct, List.mem_eraseDups]

@[simp] theorem mem_targets_branch {c : Operand} {onTrue onFalse t : BlockId} :
    t ∈ (Terminator.branch c onTrue onFalse).targets ↔ t = onTrue ∨ t = onFalse := by
  by_cases e : onTrue = onFalse <;> simp [Terminator.targets, e]

theorem Terminator.mem_targets_mapTargets {g : BlockId → BlockId} {t : Terminator} {c : BlockId} :
    c ∈ (t.mapTargets g).targets ↔ ∃ b ∈ t.targets, g b = c := by
  cases t with
  | branch o x y =>
    rw [mapTargets, mem_targets_branch]
    simp only [mem_targets_branch, or_and_right, exists_or, exists_eq_left]
    exact or_congr eq_comm eq_comm
  | _ => simp [mapTargets, targets, eq_comm]

namespace Func

variable {f : Func} {a b : BlockId}

/-! ## Edges -/

theorem mem_successors : b ∈ f.successors a ↔ ∃ blk, f.block? a = some blk ∧ b ∈ blk.term.targets := by
  unfold successors term?
  cases f.block? a <;> simp

theorem mem_numbered {blk : Block} : (blk, b) ∈ f.numbered ↔ f.block? b = some blk := by
  unfold numbered block?
  exact List.mk_mem_zipIdx_iff_getElem?

/-- Predecessors and successors describe the same edges. -/
theorem mem_predecessors : a ∈ f.predecessors b ↔ b ∈ f.successors a := by
  unfold predecessors
  rw [mem_successors]
  simp only [List.mem_map, List.mem_filter, List.contains_iff_mem, Prod.exists, exists_eq_right, mem_numbered]

theorem mem_edgeEnds : b ∈ f.edgeEnds ↔ b < f.blocks.length ∨ ∃ a, b ∈ f.successors a := by
  unfold edgeEnds blockIds
  simp only [mem_distinct, List.mem_append, List.mem_range, List.mem_flatMap, mem_successors, block?]
  refine or_congr_right ⟨?_, ?_⟩
  · rintro ⟨blk, hm, ht⟩
    obtain ⟨i, hi⟩ := List.getElem?_of_mem hm
    exact ⟨i, blk, hi, ht⟩
  · rintro ⟨i, blk, hi, ht⟩
    exact ⟨blk, List.mem_of_getElem? hi, ht⟩

theorem mem_places : b ∈ f.places ↔ b = f.entry ∨ b ∈ f.edgeEnds := by
  unfold places
  split
  · rename_i h
    have h : f.entry ∈ f.edgeEnds := by simpa using h
    exact ⟨Or.inr, fun hb => hb.elim (· ▸ h) id⟩
  · exact List.mem_cons

/-! ## Live places -/

/-- Control may get to a place: a path leads there from the entry. -/
def Live (f : Func) (b : BlockId) : Prop := ∃ p, Path f.successors f.entry p b

theorem live_iff_reaches : f.Live b ↔ Reaches f.successors (fun _ => True) f.entry b := by
  rw [reaches_iff_path]
  simp [Live]

theorem live_entry : f.Live f.entry := ⟨_, .single _⟩

theorem Live.step (h : f.Live a) (hs : b ∈ f.successors a) : f.Live b := by
  obtain ⟨p, hp⟩ := h
  exact ⟨_, hp.snoc hs⟩

/-- The universe of the search holds every place that control may get to. -/
theorem reaches_places {ok : BlockId → Prop} :
    Reaches f.successors (fun x => x ∈ f.places ∧ ok x) f.entry b ↔ Reaches f.successors ok f.entry b := by
  refine ⟨fun h => h.mono fun _ => And.right, fun h => ?_⟩
  induction h with
  | refl h => exact .refl ⟨mem_places.mpr (Or.inl rfl), h⟩
  | tail _ hs hc ih => exact .tail ih hs ⟨mem_places.mpr (Or.inr (mem_edgeEnds.mpr (Or.inr ⟨_, hs⟩))), hc⟩

/-- The search from the entry finds the live places. -/
theorem mem_reachable : b ∈ f.reachable ↔ f.Live b := by
  unfold reachable
  rw [mem_reach, live_iff_reaches, ← reaches_places]
  simp

theorem mem_unreachableBlocks : b ∈ f.unreachableBlocks ↔ b < f.blocks.length ∧ ¬f.Live b := by
  simp [unreachableBlocks, blockIds, mem_reachable]

theorem live_of_all_reachable (h : f.unreachableBlocks = []) (hb : b < f.blocks.length) : f.Live b := by
  by_contra hdead
  have hmem := mem_unreachableBlocks.mpr ⟨hb, hdead⟩
  rw [h] at hmem
  cases hmem

theorem mem_livePredecessors {live : List BlockId} :
    a ∈ f.livePredecessors live b ↔ b ∈ f.successors a ∧ a ∈ live := by
  simp [livePredecessors, mem_predecessors]

end Func

end SsaFusion
