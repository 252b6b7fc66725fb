import Mathlib.Data.List.TakeWhile
import Mathlib.Tactic.Common
import SsaFusion.IR.Func

/-!
# Edits of instructions and blocks

What the edits that transformations make keep: results and kinds of instructions, and the order of phis before code. Edits
of phi sources are described by what they do to the list of sources.
-/

namespace SsaFusion

/-! ## Operations -/

namespace Op

variable (op : Op) (g : List (BlockId × Operand) → List (BlockId × Operand)) (r : Operand → Operand)

@[simp] theorem dest?_mapSources : (op.mapSources g).dest? = op.dest? := by
  cases op <;> rfl

@[simp] theorem isPhi_mapSources : (op.mapSources g).isPhi = op.isPhi := by
  cases op <;> rfl

@[simp] theorem hasEffect_mapSources : (op.mapSources g).hasEffect = op.hasEffect := by
  cases op <;> rfl

@[simp] theorem sources?_mapSources : (op.mapSources g).sources? = op.sources?.map g := by
  cases op <;> rfl

theorem mapSources_of_not_phi (h : op.isPhi = false) : op.mapSources g = op := by
  cases op with
  | phi => cases h
  | _ => rfl

theorem mapSources_id (hg : ∀ ss, op.sources? = some ss → g ss = ss) : op.mapSources g = op := by
  cases op with
  | phi d ss => exact congrArg _ (hg ss rfl)
  | _ => rfl

theorem mapSources_mapSources (g' : List (BlockId × Operand) → List (BlockId × Operand)) :
    (op.mapSources g).mapSources g' = op.mapSources (g' ∘ g) := by
  cases op <;> rfl

@[simp] theorem dest?_mapOperands : (op.mapOperands r).dest? = op.dest? := by
  cases op <;> rfl

@[simp] theorem isPhi_mapOperands : (op.mapOperands r).isPhi = op.isPhi := by
  cases op <;> rfl

@[simp] theorem hasEffect_mapOperands : (op.mapOperands r).hasEffect = op.hasEffect := by
  cases op with
  | binary o d a b => cases o <;> rfl
  | _ => rfl

@[simp] theorem sources?_mapOperands :
    (op.mapOperands r).sources? = op.sources?.map (List.map fun s => (s.1, r s.2)) := by
  cases op <;> rfl

@[simp] theorem operands_mapOperands : (op.mapOperands r).operands = op.operands.map r := by
  cases op <;> simp [mapOperands, operands]

theorem isPhi_of_hasEffect (h : op.hasEffect = true) : op.isPhi = false := by
  cases op <;> first | rfl | cases h

theorem isPhi_of_isPure (h : op.isPure = true) : op.isPhi = false := by
  cases op <;> first | rfl | cases h

theorem isPhi_iff_sources : op.isPhi = true ↔ ∃ ss, op.sources? = some ss := by
  cases op <;> simp [isPhi, sources?]

theorem operands_of_sources {ss : List (BlockId × Operand)} (h : op.sources? = some ss) :
    op.operands = ss.map (·.2) := by
  cases op <;> simp_all [sources?, operands]

theorem dest?_isSome_of_isPhi (h : op.isPhi = true) : ∃ d, op.dest? = some d := by
  cases op with
  | phi d _ => exact ⟨d, rfl⟩
  | _ => cases h

end Op

/-! ## Instructions -/

namespace Instr

variable (i : Instr)

theorem isPhi_iff_sources : i.isPhi = true ↔ ∃ ss, i.sources? = some ss := i.op.isPhi_iff_sources

theorem eq_phi_of_isPhi {i : Instr} (h : i.isPhi = true) : ∃ d sources, i.op = .phi d sources := by
  obtain ⟨op, comment⟩ := i
  cases op <;> first | exact ⟨_, _, rfl⟩ | cases h

theorem sources?_eq_none (h : i.isPhi = false) : i.sources? = none := by
  rw [← Option.not_isSome_iff_eq_none, Option.isSome_iff_exists, ← isPhi_iff_sources, h]
  simp

theorem dest?_isSome_of_isPhi (h : i.isPhi = true) : ∃ d, i.dest? = some d := i.op.dest?_isSome_of_isPhi h

theorem mem_reads {v : ValueId} : v ∈ i.reads ↔ .var v ∈ i.operands := by
  unfold reads valuesOf
  rw [List.mem_filterMap]
  constructor
  · rintro ⟨o, ho, hv⟩
    cases o with
    | lit => cases hv
    | var w => cases hv; exact ho
  · exact fun h => ⟨_, h, rfl⟩

/-- What a phi reads are the values among its sources. -/
theorem mem_reads_of_sources {ss : List (BlockId × Operand)} (h : i.sources? = some ss) {v : ValueId} :
    v ∈ i.reads ↔ ∃ s ∈ ss, s.2 = .var v := by
  rw [mem_reads, operands, i.op.operands_of_sources h, List.mem_map]

section Edits

variable (g : BlockId → BlockId) (keep : BlockId → Bool) (old new : ValueId)

@[simp] theorem dest?_mapSourceBlocks : (i.mapSourceBlocks g).dest? = i.dest? := Op.dest?_mapSources ..

@[simp] theorem isPhi_mapSourceBlocks : (i.mapSourceBlocks g).isPhi = i.isPhi := Op.isPhi_mapSources ..

@[simp] theorem hasEffect_mapSourceBlocks : (i.mapSourceBlocks g).hasEffect = i.hasEffect := Op.hasEffect_mapSources ..

@[simp] theorem sources?_mapSourceBlocks :
    (i.mapSourceBlocks g).sources? = i.sources?.map (List.map fun s => (g s.1, s.2)) := Op.sources?_mapSources ..

@[simp] theorem dest?_keepSources : (i.keepSources keep).dest? = i.dest? := Op.dest?_mapSources ..

@[simp] theorem isPhi_keepSources : (i.keepSources keep).isPhi = i.isPhi := Op.isPhi_mapSources ..

@[simp] theorem hasEffect_keepSources : (i.keepSources keep).hasEffect = i.hasEffect := Op.hasEffect_mapSources ..

@[simp] theorem sources?_keepSources :
    (i.keepSources keep).sources? = i.sources?.map (List.filter fun s => keep s.1) := Op.sources?_mapSources ..

@[simp] theorem dest?_renameUses : (i.renameUses old new).dest? = i.dest? := Op.dest?_mapOperands ..

@[simp] theorem isPhi_renameUses : (i.renameUses old new).isPhi = i.isPhi := Op.isPhi_mapOperands ..

@[simp] theorem hasEffect_renameUses : (i.renameUses old new).hasEffect = i.hasEffect := Op.hasEffect_mapOperands ..

@[simp] theorem sources?_renameUses :
    (i.renameUses old new).sources? = i.sources?.map (List.map fun s => (s.1, s.2.rename old new)) :=
  Op.sources?_mapOperands ..

theorem mapSourceBlocks_of_not_phi (h : i.isPhi = false) : i.mapSourceBlocks g = i := by
  unfold mapSourceBlocks
  rw [Op.mapSources_of_not_phi _ _ h]

theorem mapSourceBlocks_mapSourceBlocks (g' : BlockId → BlockId) :
    (i.mapSourceBlocks g).mapSourceBlocks g' = i.mapSourceBlocks (g' ∘ g) := by
  unfold mapSourceBlocks
  rw [Op.mapSources_mapSources]
  congr 2
  funext ss
  simp

theorem keepSources_of_not_phi (h : i.isPhi = false) : i.keepSources keep = i := by
  unfold keepSources
  rw [Op.mapSources_of_not_phi _ _ h]

end Edits

end Instr

/-! ## Blocks -/

namespace Block

variable {b : Block}

/-- A block whose phis are moved in front by an edit that keeps them phis splits as before. -/
theorem phis_of_append {ps rest : List Instr} (hb : b.instrs = ps ++ rest) (hps : ∀ i ∈ ps, i.isPhi = true)
    (hrest : ∀ i ∈ rest, i.isPhi = false) : b.phis = ps ∧ b.body = rest := by
  unfold phis body
  rw [hb]
  constructor
  · rw [List.takeWhile_append_of_pos hps]
    cases rest with
    | nil => simp
    | cons i r => simp [hrest i (List.mem_cons_self ..)]
  · rw [List.dropWhile_append_of_pos hps]
    cases rest with
    | nil => rfl
    | cons i r => simp [hrest i (List.mem_cons_self ..)]

theorem isPhi_of_mem_phis {i : Instr} (h : i ∈ b.phis) : i.isPhi = true := List.mem_takeWhile_imp h

/-- Dropping instructions from a block whose phis all stand in front. -/
theorem split_filter (b : Block) (p : Instr → Bool) (hb : ∀ i ∈ b.body, i.isPhi = false) :
    ({ b with instrs := b.instrs.filter p } : Block).phis = b.phis.filter p ∧
      ({ b with instrs := b.instrs.filter p } : Block).body = b.body.filter p := by
  have hsplit : b.instrs.filter p = b.phis.filter p ++ b.body.filter p := by
    rw [← List.filter_append, phis_append_body]
  exact phis_of_append hsplit (fun i hi => isPhi_of_mem_phis (List.mem_filter.mp hi).1)
    fun i hi => hb i (List.mem_filter.mp hi).1

section MapInstrs

variable (b : Block) {g : Instr → Instr} (hg : ∀ i, (g i).isPhi = i.isPhi)

include hg

theorem phis_mapInstrs : (b.mapInstrs g).phis = b.phis.map g := by
  unfold phis mapInstrs
  rw [List.takeWhile_map]
  exact congrArg (fun p => (b.instrs.takeWhile p).map g) (funext hg)

theorem body_mapInstrs : (b.mapInstrs g).body = b.body.map g := by
  unfold body mapInstrs
  rw [List.dropWhile_map]
  exact congrArg (fun p => (b.instrs.dropWhile p).map g) (funext hg)

end MapInstrs

theorem mem_instrs_of_mem_phis {i : Instr} (h : i ∈ b.phis) : i ∈ b.instrs := by
  rw [← b.phis_append_body]
  exact List.mem_append_left _ h

theorem mem_instrs_of_mem_body {i : Instr} (h : i ∈ b.body) : i ∈ b.instrs := by
  rw [← b.phis_append_body]
  exact List.mem_append_right _ h

end Block

end SsaFusion
