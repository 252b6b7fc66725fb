import SsaFusion.Proofs.Sweep.Faults
import SsaFusion.Proofs.Sweep.Fixpoint

/-!
# The blocks that a sweep leaves

Round by round, pruning removes what is dead at the time; in the end each block has lost the instructions that are dead in the
result (`block?_pruneAll`). So a swept block is the block before without dead instructions, its phis without sources from
removed blocks and all blocks numbered anew (`phisAt_sweep`, `bodyAt_sweep`, `term?_sweep`).
-/

namespace SsaFusion

namespace Func

variable {f : Func} {b : BlockId} {v : ValueId} {i : Instr}

/-- What is live when fewer values are read is live when more are. -/
theorem isLive_mono {read read' : List ValueId} (h : read ⊆ read') (hi : isLive read i = true) :
    isLive read' i = true := by
  rw [isLive, Bool.or_eq_true, Bool.and_eq_true] at hi ⊢
  refine hi.imp id (And.imp id fun hd => ?_)
  cases hdest : i.dest? with
  | none => rfl
  | some d =>
    rw [hdest, Option.all_some, List.contains_eq_mem, decide_eq_true_eq] at hd
    rw [Option.all_some, List.contains_eq_mem, decide_eq_true_eq]
    exact h hd

/-- Pruning leaves of every block what is live in the end. -/
theorem block?_pruneAll : f.pruneAll.block? b =
    (f.block? b).map fun blk => { blk with instrs := blk.instrs.filter (isLive f.pruneAll.reads) } := by
  fun_induction pruneAll f with
  | case1 f _ ih =>
    rw [ih, block?_prune, Option.map_map]
    refine congrArg (Option.map · (f.block? b)) (funext fun blk => ?_)
    have hsub : f.prune.pruneAll.reads ⊆ f.reads := List.Subset.trans f.prune.reads_pruneAll_subset f.reads_prune_subset
    simp only [Function.comp_apply, List.filter_filter]
    refine congrArg (fun is => { blk with instrs := is }) (List.filter_congr fun i _ => ?_)
    cases hi : isLive f.prune.pruneAll.reads i with
    | false => rfl
    | true => rw [isLive_mono hsub hi, Bool.and_self]
  | case2 f h =>
    cases hblk : f.block? b with
    | none => rfl
    | some blk =>
      rw [Option.map_some, List.filter_eq_self.mpr]
      intro i hi
      exact isLive_of_not_fewer h i (List.mem_flatMap.mpr ⟨blk, List.mem_of_getElem? hblk, hi⟩)

theorem dropped_of_not_isLive {read : List ValueId} (h : isLive read i = false) :
    i.hasEffect = false ∧ ∀ d, i.dest? = some d → d ∉ read := by
  rw [isLive, Bool.or_eq_false_iff] at h
  refine ⟨h.1, fun d hd hread => ?_⟩
  have hop : i.op ≠ .nop := by
    intro hop
    rw [Instr.dest?, hop] at hd
    cases hd
  simp [hop, hd, hread] at h

theorem read_of_isLive {read : List ValueId} (h : isLive read i = true) (heffect : i.hasEffect = false) {d : ValueId}
    (hd : i.dest? = some d) : d ∈ read := by
  rw [isLive, heffect, Bool.false_or, Bool.and_eq_true, hd] at h
  simpa using h.2

/-- A phi without sources from blocks that control never gets to, and with the others numbered anew. -/
def renumbered (f : Func) (i : Instr) : Instr := (i.keepSources (!f.unreachableBlocks.contains ·)).mapSourceBlocks f.label

@[simp] theorem isPhi_renumbered : (f.renumbered i).isPhi = i.isPhi := by simp [renumbered]

@[simp] theorem dest?_renumbered : (f.renumbered i).dest? = i.dest? := by simp [renumbered]

theorem renumbered_of_not_phi (h : i.isPhi = false) : f.renumbered i = i := by
  rw [renumbered, Instr.keepSources_of_not_phi _ _ h, Instr.mapSourceBlocks_of_not_phi _ _ h]

section Kept

variable (hb : b ∈ f.kept)

include hb

theorem block?_sweep : f.sweep.block? (f.label b) = (f.block? b).map fun blk =>
    { relabel f.kept f.unreachableBlocks blk with
      instrs := (blk.instrs.map f.renumbered).filter (isLive f.sweep.reads) } := by
  rw [sweep, block?_pruneAll, block?_compact hb, Option.map_map]
  rfl

theorem term?_sweep : f.sweep.term? (f.label b) = (f.term? b).map (Terminator.mapTargets f.label) := by
  rw [term?, block?_sweep hb, term?, Option.map_map, Option.map_map]
  rfl

variable (hphi : ∀ i ∈ f.bodyAt b, i.isPhi = false)

include hphi

theorem parts_sweep : f.sweep.phisAt (f.label b) = ((f.phisAt b).map f.renumbered).filter (isLive f.sweep.reads) ∧
    f.sweep.bodyAt (f.label b) = (f.bodyAt b).filter (isLive f.sweep.reads) := by
  cases hblk : f.block? b with
  | none => simp [phisAt, bodyAt, block?_sweep hb, hblk]
  | some blk =>
    have hbody : blk.body.map f.renumbered = blk.body := by
      rw [List.map_congr_left fun i hi => renumbered_of_not_phi (hphi i (by simpa [bodyAt, hblk])), List.map_id']
    have hsplit := Block.split_filter (blk.mapInstrs f.renumbered) (isLive f.sweep.reads) (by
      rw [Block.body_mapInstrs blk fun i => isPhi_renumbered, hbody]
      exact fun i hi => hphi i (by simpa [bodyAt, hblk]))
    rw [Block.phis_mapInstrs blk fun i => isPhi_renumbered, Block.body_mapInstrs blk fun i => isPhi_renumbered, hbody]
      at hsplit
    simp only [phisAt, bodyAt, block?_sweep hb, hblk, Option.map_some, Option.getD_some]
    exact hsplit

theorem phisAt_sweep : f.sweep.phisAt (f.label b) = ((f.phisAt b).map f.renumbered).filter (isLive f.sweep.reads) :=
  (parts_sweep hb hphi).1

theorem bodyAt_sweep : f.sweep.bodyAt (f.label b) = (f.bodyAt b).filter (isLive f.sweep.reads) := (parts_sweep hb hphi).2

end Kept

end Func

end SsaFusion
