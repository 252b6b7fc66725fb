import Mathlib.Data.List.Perm.Subperm
import SsaFusion.Proofs.Flow.Immediate

/-!
# The dominator tree is exact

Dropping the virtual exit from the immediate dominators leaves a tree of blocks (`DomTree.ofIdoms`), and the way up in it
is the way up in the table, as far as it leads through blocks (`isAbove_ofIdoms`). So the tree decides dominance in the
graph it was made for (`dominates_iff`), and the parent of a block is its closest strict dominator (`parent?_iff`). For the
flow graph from the entry this is dominance as paths say it (`dominators_exact`).
-/

namespace SsaFusion

namespace DomTree

variable {t : Table FlowNode FlowNode} {order : List FlowNode} {root : FlowNode} {a b p : BlockId}

/-! ## From the table to the tree -/

section Table

variable (hkeys : (t.entries.map Prod.fst).Nodup)

include hkeys

theorem mem_nodes_ofIdoms : b ∈ (ofIdoms t).nodes ↔ (t.get? (.block b)).isSome := by
  rw [Option.isSome_iff_exists]
  simp only [ofIdoms, List.mem_filterMap, Table.get?, Table.lookup_eq_some_iff hkeys]
  constructor
  · rintro ⟨⟨x, p⟩, hx, hb⟩
    cases x with
    | exit => cases hb
    | block y =>
      obtain rfl : y = b := Option.some.inj hb
      exact ⟨p, hx⟩
  · rintro ⟨p, hp⟩
    exact ⟨(.block b, p), hp, rfl⟩

theorem parent?_ofIdoms : (ofIdoms t).parent? b = some p ↔ t.get? (.block b) = some (.block p) ∧ p ≠ b := by
  have hedge : ∀ {e : FlowNode × FlowNode} {x : BlockId × BlockId},
      edge? e = some x ↔ e = (.block x.1, .block x.2) ∧ x.2 ≠ x.1 := by
    rintro ⟨y | _, q | _⟩ ⟨x₁, x₂⟩ <;> simp [edge?]
    grind
  have honce : ((t.entries.filterMap edge?).map Prod.fst).Nodup := by
    rw [List.Nodup, List.pairwise_map] at hkeys ⊢
    refine List.pairwise_filterMap.mpr (hkeys.imp fun {e e'} hne x hx x' hx' h => hne ?_)
    rw [(hedge.mp hx).1, (hedge.mp hx').1, h]
  rw [parent?, ofIdoms, Table.get?, Table.lookup_eq_some_iff honce, Table.get?, Table.lookup_eq_some_iff hkeys]
  simp only [List.mem_filterMap, hedge]
  constructor
  · rintro ⟨e, he, rfl, hne⟩
    exact ⟨he, hne⟩
  · rintro ⟨he, hne⟩
    exact ⟨_, he, rfl, hne⟩

variable (h : Rising order root t.get?) (hroot : order.head? = some root) (hexit : (t.get? .exit).isSome → root = .exit)

include h hroot hexit

/-- The way up from a block leads to the other blocks above it. -/
theorem isAbove_ofIdoms {k : Nat} (hb : (t.get? (.block b)).isSome) (hk : order.idxOf (.block b) ≤ k) :
    (ofIdoms t).isAbove a k b = true ↔ a ≠ b ∧ Above t.get? (.block a) (.block b) := by
  induction k generalizing b with
  | zero =>
    have hbr : .block b = root := by
      rw [← List.idxOf_inj (h.listed hb), place_root hroot]
      omega
    simp only [isAbove, Bool.false_eq_true, false_iff, not_and]
    intro hne hab
    rw [hbr] at hab
    exact hne (FlowNode.block.inj ((h.eq_root_of_above hab).trans hbr.symm))
  | succ k ih =>
    unfold isAbove
    cases hp : (ofIdoms t).parent? b with
    | some p =>
      obtain ⟨hup, hne⟩ := (parent?_ofIdoms hkeys).mp hp
      have hbr : FlowNode.block b ≠ root := fun e => by
        rw [e, h.base, ← e] at hup
        exact hne (FlowNode.block.inj (Option.some.inj hup)).symm
      have hlower := h.lower hup hbr
      simp only [Bool.or_eq_true, beq_iff_eq, ih (h.closed hup) (by omega)]
      constructor
      · rintro (rfl | ⟨hap, hab⟩)
        · exact ⟨hne, .step hup .refl⟩
        · refine ⟨?_, .step hup hab⟩
          rintro rfl
          have := h.place_le hab
          omega
      · rintro ⟨hab, habove⟩
        by_cases e : p = a
        · exact Or.inl e
        · exact Or.inr ⟨fun e' => e e'.symm, habove.parent (fun e' => hab (FlowNode.block.inj e')) hup⟩
    | none =>
      simp only [Bool.false_eq_true, false_iff, not_and]
      intro hne habove
      obtain ⟨q, hq⟩ := Option.isSome_iff_exists.mp hb
      have haq := habove.parent (fun e => hne (FlowNode.block.inj e)) hq
      -- a bound block without a parent is the root or below the virtual exit, which is the root then
      cases q with
      | exit =>
        have hr := hexit (h.closed hq)
        rw [← hr] at haq
        cases hr.symm.trans (h.eq_root_of_above haq).symm
      | block q =>
        have e : q = b := by
          by_contra e
          rw [(parent?_ofIdoms hkeys).mpr ⟨hq, e⟩] at hp
          cases hp
        subst e
        have hbr : FlowNode.block q = root := by
          by_contra hbr
          exact Nat.lt_irrefl _ (h.lower hq hbr)
        rw [hbr] at habove
        exact hne (FlowNode.block.inj ((h.eq_root_of_above habove).trans hbr.symm))

end Table

/-! ## The tree of a graph -/

section Graph

variable {next preds : FlowNode → List FlowNode} (hg : PredsOf next preds root order) (hexit : .exit ∈ order → root = .exit)

include hg

theorem contains_iff :
    (ofIdoms ((immediateDominators order preds).getD .empty)).contains b = true ↔ .block b ∈ order := by
  obtain ⟨t, ht, hkeys, _, hbound, _⟩ := exists_immediateDominators hg
  rw [ht, Option.getD_some, contains, List.contains_iff_mem, mem_nodes_ofIdoms hkeys, hbound]

/-- The parent of a block is its strict dominator that all its strict dominators dominate. -/
theorem parent?_iff (hb : .block b ∈ order) :
    (ofIdoms ((immediateDominators order preds).getD .empty)).parent? b = some p ↔
      (p ≠ b ∧ Doms next root (.block p) (.block b)) ∧
        ∀ e, e ≠ .block b → Doms next root e (.block b) → Doms next root e (.block p) := by
  obtain ⟨t, ht, hkeys, h, hbound, habove⟩ := exists_immediateDominators hg
  rw [ht, Option.getD_some, parent?_ofIdoms hkeys]
  obtain ⟨q, hq⟩ := Option.isSome_iff_exists.mp ((hbound _).mpr hb)
  have hqm : q ∈ order := (hbound _).mp (h.closed hq)
  have hqb : Doms next root q (.block b) := (habove _ _ hb).mp (.step hq .refl)
  have hclose : ∀ e, e ≠ .block b → Doms next root e (.block b) → Doms next root e q := fun e hne he =>
    (habove _ _ hqm).mp (((habove _ _ hb).mpr he).parent hne hq)
  constructor
  · rintro ⟨hp, hne⟩
    obtain rfl : q = .block p := Option.some.inj (hq.symm.trans hp)
    exact ⟨⟨hne, hqb⟩, hclose⟩
  · rintro ⟨⟨hne, hpb⟩, hall⟩
    have hpq := hclose (.block p) (fun e => hne (FlowNode.block.inj e)) hpb
    have hqne : q ≠ .block b := by
      rintro rfl
      have hbr : FlowNode.block b = root := by
        by_contra hbr
        exact Nat.lt_irrefl _ (h.lower hq hbr)
      rw [hbr] at hpb
      exact hne (FlowNode.block.inj (hpb.eq_root.trans hbr.symm))
    rw [hq, (hall q hqne hqb).antisymm hpq ((hg.mem q).mp hqm)]
    exact ⟨rfl, hne⟩

/-- Without a virtual exit every block but the root has a parent. -/
theorem exists_parent (hb : .block b ∈ order) (hne : .block b ≠ root) (hno : .exit ∉ order) :
    ∃ p, (ofIdoms ((immediateDominators order preds).getD .empty)).parent? b = some p := by
  obtain ⟨t, ht, hkeys, h, hbound, _⟩ := exists_immediateDominators hg
  obtain ⟨q, hq⟩ := Option.isSome_iff_exists.mp ((hbound _).mpr hb)
  have hqm : q ∈ order := (hbound _).mp (h.closed hq)
  rw [ht, Option.getD_some]
  cases q with
  | exit => exact absurd hqm hno
  | block p =>
    refine ⟨p, (parent?_ofIdoms hkeys).mpr ⟨hq, ?_⟩⟩
    rintro rfl
    exact Nat.lt_irrefl _ (h.lower hq hne)

include hexit

/-- The tree relates its blocks as dominance does, and any block to itself. -/
theorem dominates_iff : (ofIdoms ((immediateDominators order preds).getD .empty)).dominates a b = true ↔
    a = b ∨ .block a ∈ order ∧ .block b ∈ order ∧ Doms next root (.block a) (.block b) := by
  obtain ⟨t, ht, hkeys, h, hbound, habove⟩ := exists_immediateDominators hg
  have hlength : order.length ≤ (ofIdoms t).nodes.length + 1 := by
    have hsub : order ⊆ .exit :: (ofIdoms t).nodes.map .block := fun x hx => by
      cases x with
      | exit => exact List.mem_cons_self
      | block b =>
        refine List.mem_cons_of_mem _ (List.mem_map_of_mem ((mem_nodes_ofIdoms hkeys).mpr ((hbound _).mpr hx)))
    simpa using (List.subperm_of_subset hg.nodup hsub).length_le
  simp only [ht, Option.getD_some, dominates, contains, Bool.or_eq_true, beq_iff_eq, Bool.and_eq_true,
    List.contains_iff_mem, mem_nodes_ofIdoms hkeys, hbound, and_assoc]
  by_cases hab : a = b
  · simp [hab]
  · refine or_congr_right (and_congr_right fun _ => and_congr_right fun hb => ?_)
    have hk : order.idxOf (.block b) ≤ (ofIdoms t).nodes.length := by
      have := List.idxOf_lt_length_of_mem hb
      omega
    rw [isAbove_ofIdoms hkeys h hg.head (fun hx => hexit ((hbound _).mp hx)) ((hbound _).mpr hb) hk, habove _ _ hb]
    exact and_iff_right hab

end Graph

end DomTree

/-! ## Steps between blocks -/

namespace FlowNode

variable {joined : List BlockId} {next : BlockId → List BlockId} {ok : FlowNode → Prop} {a b : BlockId} {x : FlowNode}

/-- From a block only blocks are reached. -/
theorem reaches_of_block (h : Reaches (steps joined next) ok (.block a) x) :
    ∃ b, x = .block b ∧ Reaches next (fun y => ok (.block y)) a b := by
  induction h with
  | refl ha => exact ⟨a, rfl, .refl ha⟩
  | tail _ hs hok ih =>
    obtain ⟨b, rfl, hb⟩ := ih
    obtain ⟨c, hc, rfl⟩ := List.mem_map.mp hs
    exact ⟨c, rfl, .tail hb hc hok⟩

theorem reaches_block : Reaches (steps joined next) ok (.block a) (.block b) ↔ Reaches next (fun y => ok (.block y)) a b := by
  constructor
  · intro h
    obtain ⟨b', e, h⟩ := reaches_of_block h
    exact FlowNode.block.inj e ▸ h
  · intro h
    induction h with
    | refl ha => exact .refl ha
    | tail _ hs hok ih => exact .tail ih (List.mem_map_of_mem hs) hok

/-- What the virtual exit reaches are the blocks that it is joined to and what these reach. -/
theorem reaches_exit : Reaches (steps joined next) ok .exit (.block b) ↔
    ok .exit ∧ ∃ e ∈ joined, Reaches next (fun y => ok (.block y)) e b := by
  constructor
  · intro h
    refine ⟨h.ok_start, ?_⟩
    rcases h.cases_head with e | ⟨c, hc, h⟩
    · cases e
    · obtain ⟨e, he, rfl⟩ := List.mem_map.mp hc
      exact ⟨e, he, reaches_block.mp h⟩
  · rintro ⟨hok, e, he, h⟩
    exact .head hok (List.mem_map_of_mem he) (reaches_block.mpr h)

end FlowNode

/-! ## Dominance from the entry -/

namespace Func

variable {f : Func} {a b c d : BlockId}

/-- The order from the entry, as nodes of the graph. -/
theorem entry_predsOf (f : Func) :
    PredsOf (FlowNode.steps [] f.successors) f.entryPreds (.block f.entry) (f.reversePostorder.map .block) := by
  have hl := f.reversePostorder_listed
  refine ⟨⟨by simp [hl.head], hl.nodup.map fun _ _ => FlowNode.block.inj, fun x => ?_, fun x hx hne => ?_⟩,
    fun x hx _ p hp => ?_⟩
  · constructor
    · intro hx
      obtain ⟨b, hb, rfl⟩ := List.mem_map.mp hx
      exact FlowNode.reaches_block.mpr ((hl.mem b).mp hb)
    · intro hx
      obtain ⟨b, rfl, hb⟩ := FlowNode.reaches_of_block hx
      exact List.mem_map_of_mem ((hl.mem b).mpr hb)
  · obtain ⟨b, hb, rfl⟩ := List.mem_map.mp hx
    obtain ⟨u, hsub, hs⟩ := hl.entered b hb fun e => hne (e ▸ rfl)
    exact ⟨.block u, hsub.map FlowNode.block, List.mem_map_of_mem hs⟩
  · obtain ⟨b, hb, rfl⟩ := List.mem_map.mp hx
    obtain ⟨a, ha, rfl⟩ := List.mem_map.mp hp
    simp [entryPreds, FlowNode.steps, mem_predecessors]

theorem block_mem_order : FlowNode.block b ∈ f.reversePostorder.map .block ↔ f.Live b := by
  simp [mem_reversePostorder]

theorem doms_entry :
    Doms (FlowNode.steps [] f.successors) (.block f.entry) (.block a) (.block b) ↔ f.Dominates a b := by
  rw [dominates_iff_doms, Doms, FlowNode.reaches_block, Doms]
  simp

/-- What the tree answers, for any two places. -/
theorem dominators_dominates :
    f.dominators.dominates a b = true ↔ a = b ∨ f.Live a ∧ f.Live b ∧ f.Dominates a b := by
  rw [dominators, entryIdoms, DomTree.dominates_iff f.entry_predsOf (by simp), block_mem_order, block_mem_order, doms_entry]

theorem dominators_dominates_of_live (hb : f.Live b) : f.dominators.dominates a b = true ↔ f.Dominates a b := by
  rw [dominators_dominates]
  constructor
  · rintro (rfl | ⟨_, _, h⟩)
    · exact .refl a
    · exact h
  · exact fun h => Or.inr ⟨h.live hb, hb, h⟩

/-- The parent of a live block is its strict dominator that every strict dominator dominates. -/
theorem dominators_parent? (hb : f.Live b) :
    f.dominators.parent? b = some d ↔
      f.StrictlyDominates d b ∧ ∀ e, f.StrictlyDominates e b → f.Dominates e d := by
  rw [dominators, entryIdoms, DomTree.parent?_iff f.entry_predsOf (block_mem_order.mpr hb), doms_entry]
  refine and_congr_right fun _ => ⟨fun h e he => ?_, fun h e hne he => ?_⟩
  · exact doms_entry.mp (h (.block e) (fun e' => he.1 (FlowNode.block.inj e')) (doms_entry.mpr he.2))
  · have hreached := he.reached (FlowNode.reaches_block.mpr (live_iff_reaches.mp hb) : Reaches _ (fun _ => True) _ _)
    obtain ⟨x, rfl, _⟩ := FlowNode.reaches_of_block hreached
    exact doms_entry.mpr (h x ⟨fun e' => hne (e' ▸ rfl), doms_entry.mp he⟩)

theorem dominators_parent?_entry : f.dominators.parent? f.entry = none := by
  cases h : f.dominators.parent? f.entry with
  | none => rfl
  | some d =>
    obtain ⟨⟨hne, hd⟩, _⟩ := (dominators_parent? live_entry).mp h
    exact absurd (eq_entry_of_dominates hd) hne

theorem exists_dominators_parent (hb : f.Live b) (hne : b ≠ f.entry) : ∃ d, f.dominators.parent? b = some d :=
  DomTree.exists_parent f.entry_predsOf (block_mem_order.mpr hb) (fun e => hne (FlowNode.block.inj e)) (by simp)

/-- **The dominator tree is exact**, on any flow graph. The sweeps that look for immediate dominators end. Between live
blocks the tree answers whether every path from the entry passes through the first, it relates no other two blocks, and the
parent of a live block other than the entry is the one strict dominator that every other strict dominator dominates. -/
theorem dominators_exact (f : Func) :
    (∃ idom, f.entryIdoms = some idom) ∧
    (∀ a b, f.Live a → f.Live b →
      (f.dominators.dominates a b = true ↔ ∀ p, Path f.successors f.entry p b → a ∈ p)) ∧
    (∀ a b, a ≠ b → ¬f.Live a ∨ ¬f.Live b → f.dominators.dominates a b = false) ∧
    (∀ b, f.Live b → b ≠ f.entry → ∃ d, f.dominators.parent? b = some d ∧
      (f.StrictlyDominates d b ∧ ∀ e, f.StrictlyDominates e b → e ≠ d → f.Dominates e d) ∧
      ∀ d', f.StrictlyDominates d' b → (∀ e, f.StrictlyDominates e b → e ≠ d' → f.Dominates e d') → d' = d) ∧
    f.dominators.parent? f.entry = none := by
  refine ⟨?_, fun a b _ hb => dominators_dominates_of_live hb, fun a b hne hdead => ?_, fun b hb hne => ?_,
    dominators_parent?_entry⟩
  · obtain ⟨idom, h, _⟩ := exists_immediateDominators f.entry_predsOf
    exact ⟨idom, h⟩
  · rw [← Bool.not_eq_true, dominators_dominates]
    rintro (e | ⟨ha, hb, _⟩)
    · exact hne e
    · exact hdead.elim (· ha) (· hb)
  · obtain ⟨d, hd⟩ := exists_dominators_parent hb hne
    obtain ⟨hdb, hall⟩ := (dominators_parent? hb).mp hd
    refine ⟨d, hd, ⟨hdb, fun e he _ => hall e he⟩, fun d' hd' hall' => ?_⟩
    by_contra hdd
    -- two such dominators would dominate each other
    exact hdd ((hall d' hd').antisymm (hall' d hdb fun e => hdd e.symm) (hd'.2.live hb))

end Func

end SsaFusion
