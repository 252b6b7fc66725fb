import SsaFusion.Proofs.Flow.Loop
import SsaFusion.Proofs.Flow.Postorder

/-!
# Post-dominance is what its paths say

The post-dominator tree is the dominance of the reversed flow graph, whose root is a virtual exit joined to the live blocks
that leave the function (`exit_predsOf`). Walking against the edges from such a block is walking along them towards it
(`reached_exits`), and what is walked through on the way from a live block is live. So the tree holds the live blocks with
a way out, and it relates two of them if no way out of the second goes around the first (`postDominators_exact`).
-/

namespace SsaFusion

namespace Func

variable {f : Func} {a b e : BlockId}

/-- A block ends by leaving the function. -/
def LeavesAt (f : Func) (e : BlockId) : Prop := ∃ blk, f.block? e = some blk ∧ blk.term.isExit = true

/-- Every path from the second block to a block that leaves the function contains the first. -/
def PostDominates (f : Func) (a b : BlockId) : Prop := ∀ p e, Path f.successors b p e → f.LeavesAt e → a ∈ p

theorem mem_exits : e ∈ f.exits ↔ f.Live e ∧ f.LeavesAt e := by
  unfold exits LeavesAt
  simp only [List.mem_map, List.mem_filter, Bool.and_eq_true, List.contains_iff_mem, Prod.exists, exists_eq_right,
    mem_numbered, mem_reachable]
  constructor
  · rintro ⟨blk, hblk, hlive, hexit⟩
    exact ⟨hlive, blk, hblk, hexit⟩
  · rintro ⟨hlive, blk, hblk, hexit⟩
    exact ⟨blk, hblk, hlive, hexit⟩

/-- Control that starts at a live block stays in live places. -/
theorem Live.reaches {ok : BlockId → Prop} (hb : f.Live b) (h : Reaches f.successors ok b e) : f.Live e := by
  induction h with
  | refl _ => exact hb
  | tail _ hs _ ih => exact ih.step hs

/-- What the exits reach against the edges are the live blocks that reach an exit along them. -/
theorem reached_exits {ok : BlockId → Prop} :
    (∃ e ∈ f.exits, Reaches (f.livePredecessors f.reachable) ok e b) ↔
      f.Live b ∧ ∃ e, f.LeavesAt e ∧ Reaches f.successors ok b e := by
  have hturn : ∀ e, Reaches (f.livePredecessors f.reachable) (fun x => x ∈ f.reachable ∧ ok x) e b ↔
      Reaches f.successors (fun x => x ∈ f.reachable ∧ ok x) b e := by
    refine fun e => reaches_reverse fun x y _ hy => ?_
    rw [mem_livePredecessors]
    exact ⟨And.left, fun h => ⟨h, hy.1⟩⟩
  constructor
  · rintro ⟨e, he, h⟩
    obtain ⟨hlive, hleaves⟩ := mem_exits.mp he
    have hback : Reaches (f.livePredecessors f.reachable) (fun x => x ∈ f.reachable ∧ ok x) e b := by
      refine h.strengthen fun x hx => ⟨?_, hx.ok_end⟩
      cases hx with
      | refl _ => exact mem_reachable.mpr hlive
      | tail _ hs _ => exact (mem_livePredecessors.mp hs).2
    have hway := (hturn e).mp hback
    exact ⟨mem_reachable.mp hway.ok_start.1, e, hleaves, hway.mono fun _ => And.right⟩
  · rintro ⟨hb, e, he, h⟩
    refine ⟨e, mem_exits.mpr ⟨hb.reaches h, he⟩, ((hturn e).mpr (h.strengthen fun x hx => ⟨?_, hx.ok_end⟩)).mono
      fun _ => And.right⟩
    exact mem_reachable.mpr (hb.reaches hx)

/-! ## The reversed graph -/

theorem exitSteps_closed (x : FlowNode) : ∀ y ∈ f.exitSteps f.reachable x, y ∈ FlowNode.exit :: f.reachable.map .block := by
  intro y hy
  cases x with
  | exit =>
    obtain ⟨b, hb, rfl⟩ := List.mem_map.mp hy
    exact List.mem_cons_of_mem _ (List.mem_map_of_mem (mem_reachable.mpr (mem_exits.mp hb).1))
  | block a =>
    obtain ⟨b, hb, rfl⟩ := List.mem_map.mp hy
    exact List.mem_cons_of_mem _ (List.mem_map_of_mem (mem_livePredecessors.mp hb).2)

/-- The tour against the edges lists what the virtual exit reaches. -/
theorem exitOrder_listed (f : Func) : Listed (f.exitSteps f.reachable) .exit f.exitOrder :=
  Tour.visit_listed (fun x _ => exitSteps_closed x) List.mem_cons_self (by simp)

/-- Taken one step at a time, the tour against the edges ends with the same list. -/
theorem advance_exit (f : Func) : ∃ t : Tour FlowNode, t.finished = f.exitOrder ∧
    (Descent.advance (f.exitSteps f.reachable))^[Descent.steps (f.exitSteps f.reachable) f.exitOrder] (Descent.start .exit) =
      ⟨t, []⟩ :=
  ⟨_, rfl, Descent.advance_root (fun x _ => exitSteps_closed x) List.mem_cons_self (by simp)⟩

/-- The blocks listed are the live blocks with a way out. -/
theorem block_mem_exitOrder :
    FlowNode.block b ∈ f.exitOrder ↔ f.Live b ∧ ∃ e, f.LeavesAt e ∧ Reaches f.successors (fun _ => True) b e := by
  rw [f.exitOrder_listed.mem, exitSteps, FlowNode.reaches_exit, reached_exits]
  exact and_iff_right trivial

theorem exit_predsOf (f : Func) : PredsOf (f.exitSteps f.reachable) f.exitPreds .exit f.exitOrder := by
  refine { f.exitOrder_listed with preds := fun x hx hne p hp => ?_ }
  cases x with
  | exit => exact absurd rfl hne
  | block b =>
    have hlive := (block_mem_exitOrder.mp hx).1
    cases p with
    | exit =>
      rw [exitSteps, FlowNode.steps, List.mem_map_of_injective fun _ _ => FlowNode.block.inj, mem_exits, and_iff_right hlive, LeavesAt]
      cases hblk : f.block? b with
      | none => simp [exitPreds, term?, hblk]
      | some blk => by_cases hexit : blk.term.isExit = true <;> simp [exitPreds, term?, hblk, hexit]
    | block a => simp [exitPreds, exitSteps, FlowNode.steps, mem_livePredecessors, mem_reachable, hlive]

/-- A live block is post-dominated if it has no way out around the other. -/
theorem doms_exit (hb : f.Live b) :
    Doms (f.exitSteps f.reachable) .exit (.block a) (.block b) ↔ f.PostDominates a b := by
  rw [Doms, exitSteps, FlowNode.reaches_exit, reached_exits]
  simp only [hb, true_and, reaches_iff_path]
  constructor
  · intro h p e hp he
    by_contra ha
    exact h ⟨by simp, e, he, p, hp, fun x hx hxa => ha (FlowNode.block.inj hxa ▸ hx)⟩
  · rintro h ⟨_, e, he, p, hp, hne⟩
    exact hne a (h p e hp he) rfl

/-! ## The tree -/

/-- The nodes of the tree are the live blocks with a way out. -/
theorem mem_postDominators :
    f.postDominators.contains b = true ↔ f.Live b ∧ ∃ e, f.LeavesAt e ∧ Reaches f.successors (fun _ => True) b e := by
  rw [postDominators, exitIdoms, DomTree.contains_iff f.exit_predsOf, block_mem_exitOrder]

theorem postDominators_dominates_iff : f.postDominators.dominates a b = true ↔
    a = b ∨ f.postDominators.contains a = true ∧ f.postDominators.contains b = true ∧ f.PostDominates a b := by
  rw [mem_postDominators, mem_postDominators, ← block_mem_exitOrder, ← block_mem_exitOrder, postDominators, exitIdoms,
    DomTree.dominates_iff f.exit_predsOf fun _ => rfl]
  refine or_congr_right (and_congr_right fun _ => and_congr_right fun hb => ?_)
  exact doms_exit (block_mem_exitOrder.mp hb).1

theorem postDominators_dominates (hb : f.postDominators.contains b = true) :
    f.postDominators.dominates a b = true ↔ f.PostDominates a b := by
  rw [postDominators_dominates_iff]
  constructor
  · rintro (rfl | ⟨_, _, h⟩)
    · exact fun p e hp _ => hp.start_mem
    · exact h
  · intro h
    have hb' := mem_postDominators.mp hb
    have hreached := ((doms_exit hb'.1).mpr h).reached ((f.exitOrder_listed.mem _).mp (block_mem_exitOrder.mpr hb'))
    have ha := block_mem_exitOrder.mp ((f.exitOrder_listed.mem _).mpr hreached)
    exact Or.inr ⟨mem_postDominators.mpr ha, hb, h⟩

/-- The tree relates its own nodes only. -/
theorem postDominators_dominates_inside (h : f.postDominators.dominates a b = true) :
    a = b ∨ f.postDominators.contains a = true ∧ f.postDominators.contains b = true :=
  (postDominators_dominates_iff.mp h).imp_right fun h => ⟨h.1, h.2.1⟩

/-- **The post-dominator tree is exact**, on any flow graph. The sweeps over the reversed graph end. The tree holds the live
blocks from which a path leads to a live block that leaves the function, and no others. Between two of them it answers
whether every path from the second to a block that leaves the function contains the first. Any other block is related to
itself only. -/
theorem postDominators_exact (f : Func) :
    (∃ idom, f.exitIdoms = some idom) ∧
    (∀ b, f.postDominators.contains b = true ↔
      f.Live b ∧ ∃ p e, f.Live e ∧ f.LeavesAt e ∧ Path f.successors b p e) ∧
    (∀ a b, f.postDominators.contains a = true → f.postDominators.contains b = true →
      (f.postDominators.dominates a b = true ↔ ∀ p e, Path f.successors b p e → f.LeavesAt e → a ∈ p)) ∧
    (∀ a b, f.postDominators.contains a = false ∨ f.postDominators.contains b = false →
      (f.postDominators.dominates a b = true ↔ a = b)) := by
  refine ⟨?_, fun b => ?_, fun a b _ hb => postDominators_dominates hb, fun a b hout => ⟨fun h => ?_, ?_⟩⟩
  · obtain ⟨idom, h, _⟩ := exists_immediateDominators f.exit_predsOf
    exact ⟨idom, h⟩
  · rw [mem_postDominators]
    refine and_congr_right fun hb => ?_
    simp only [reaches_iff_path, implies_true, and_true]
    constructor
    · rintro ⟨e, he, p, hp⟩
      exact ⟨p, e, hb.reaches (reaches_iff_path.mpr ⟨p, hp, fun _ _ => trivial⟩), he, hp⟩
    · rintro ⟨p, e, _, he, hp⟩
      exact ⟨e, he, p, hp⟩
  · refine (postDominators_dominates_inside h).resolve_right fun hin => ?_
    simp [hin.1, hin.2] at hout
  · rintro rfl
    simp [DomTree.dominates]

end Func

end SsaFusion
