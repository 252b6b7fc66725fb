import SsaFusion.Proofs.Fusion.Homes
import SsaFusion.Proofs.Fusion.Rounds
import SsaFusion.Proofs.Fusion.Validity

/-!
# Fusion keeps effects

Fusion moves code, and every piece of code has one new home: a block of the original is live exactly if the block that its
code goes to is live after fusion (`Layout.live_bodyHome`). So the live blocks of the fused function hold the code of the
live blocks of the original, each once (`Layout.perm_bodySources`). A sweep keeps all effects of live blocks
(`Func.effects_sweep`), and what it leaves is live.
-/

namespace SsaFusion

namespace Func

variable {f : Func} {b : BlockId}

/-! ## Effects of a function -/

/-- The effects among the instructions of a block, in order. -/
def effectsAt (f : Func) (b : BlockId) : List Instr := (f.instrsOf b).filter Instr.hasEffect

/-- The effects among all instructions, in order. -/
def effects (f : Func) : List Instr := f.instrs.filter Instr.hasEffect

/-- The effects in the blocks that control may get to, in order. -/
def liveEffects (f : Func) : List Instr := (f.blockIds.filter f.isReachable).flatMap f.effectsAt

theorem effects_eq_range : f.effects = (List.range f.blocks.length).flatMap f.effectsAt := by
  rw [effects, instrs_eq_range, List.filter_flatMap]
  rfl

theorem liveEffects_eq_kept : f.liveEffects = f.kept.flatMap f.effectsAt := by
  have hkept : f.blockIds.filter f.isReachable = f.kept := by
    refine List.filter_congr fun b hb => ?_
    have hlt : b < f.blocks.length := List.mem_range.mp hb
    rw [Bool.eq_iff_iff]
    simp [isReachable, mem_reachable, mem_unreachableBlocks, hlt]
  rw [liveEffects, hkept]

/-- Phis have no effect. -/
theorem effectsAt_eq_body : f.effectsAt b = (f.bodyAt b).filter Instr.hasEffect := by
  have hphis : (f.phisAt b).filter Instr.hasEffect = [] := by
    refine List.filter_eq_nil_iff.mpr fun i hi heff => ?_
    have := i.op.isPhi_of_hasEffect heff
    exact Bool.false_ne_true (this.symm.trans (f.isPhi_of_mem_phisAt hi))
  rw [effectsAt, ← phisAt_append_bodyAt, List.filter_append, hphis, List.nil_append]

/-! ## Sweeping keeps the effects of live blocks -/

theorem effectsAt_compact (hb : b ∈ f.kept) : f.compact.effectsAt (f.label b) = f.effectsAt b := by
  rw [effectsAt, instrsOf_compact hb, List.filter_map]
  have hsame : ∀ i ∈ (f.instrsOf b).filter Instr.hasEffect,
      (i.keepSources (!f.unreachableBlocks.contains ·)).mapSourceBlocks f.label = i := by
    intro i hi
    have hphi := i.op.isPhi_of_hasEffect (List.mem_filter.mp hi).2
    rw [i.keepSources_of_not_phi _ hphi, i.mapSourceBlocks_of_not_phi _ hphi]
  simp only [Function.comp_def, Instr.hasEffect_mapSourceBlocks, Instr.hasEffect_keepSources]
  exact (List.map_congr_left hsame).trans (List.map_id' _)

theorem effects_compact : f.compact.effects = f.liveEffects := by
  rw [effects_eq_range, liveEffects_eq_kept, List.flatMap_def, List.flatMap_def,
    map_range_compact fun b hb => effectsAt_compact hb]

theorem effects_prune : f.prune.effects = f.effects := by
  rw [effects_eq_range, effects_eq_range, length_prune]
  refine List.flatMap_congr fun b _ => ?_
  rw [effectsAt, instrsOf_prune, List.filter_filter, effectsAt]
  refine List.filter_congr fun i _ => ?_
  cases heff : i.hasEffect <;> simp [isLive, heff]

/-- **A sweep keeps the effects of live blocks**, in order. -/
theorem effects_sweep : f.sweep.effects = f.liveEffects :=
  pruneAll_induction (P := fun g => g.effects = f.liveEffects) (fun _ hg => effects_prune.trans hg) f.compact
    effects_compact

end Func

namespace Layout

variable {f : Func} {l₁ l₂ : Loop} {p : Plan} {b c d : BlockId} (L : Layout f l₁ l₂ p)

include L

/-! ## Homes are live -/

/-- The second body stays live. -/
theorem live_inner (hb : p.Inner l₂ b) : (p.splice f).Live b := by
  obtain ⟨first, last, hbody⟩ := L.body_of_inner hb
  have hlast := (L.shape₁.last_spec L.loop₁ (L.latch_ne_header hbody).1).1
  exact L.live_inner_of_last hbody ((L.live_splice (L.loop₁.live_of_mem hlast)).1 (L.not_late_of_mem hlast)) hb

/-- The code of a removed block goes to a live block. -/
theorem live_home_of_removed (hd : p.Removed d) : (p.splice f).Live (p.bodyHome d) := by
  have hloop : ∀ {x}, x ∈ l₁.blocks → (p.splice f).Live x := fun hx =>
    (L.live_splice (L.loop₁.live_of_mem hx)).1 (L.not_late_of_mem hx)
  rcases L.removed_cases hd with rfl | rfl | rfl | ⟨g, hg, rfl | rfl⟩
  · rw [bodyHome_header₂]
    rcases headerHome_eq (p := p) with e | e
    · exact e ▸ hloop L.header₁_mem
    · exact e ▸ hloop L.latch₁_mem
  · rw [L.bodyHome_latch₂]
    exact hloop L.latch₁_mem
  · rw [L.bodyHome_preheader₂]
    exact (L.live_splice (L.shape₁.live_preheader L.loop₁)).1 L.preheader₁_not_late
  · rw [L.bodyHome_guard₂ hg]
    exact (L.home_dominates_latch₁ (Or.inr (Or.inr (Or.inr ⟨g, hg, rfl⟩)))).live (hloop L.latch₁_mem)
  · rw [L.bodyHome_exit₁ hg]
    exact (L.live_splice (L.shape₂.live_exit L.loop₂)).1 L.exit₂_not_late

/-- **Code is live after fusion exactly if it was before.** -/
theorem live_bodyHome : (p.splice f).Live (p.bodyHome d) ↔ f.Live d := by
  by_cases hd : p.Removed d
  · exact ⟨fun _ => L.live_of_late (Or.inl hd), fun _ => L.live_home_of_removed hd⟩
  · rw [bodyHome_kept hd]
    refine ⟨L.live_of_splice, fun hlive => ?_⟩
    by_cases hin : p.Inner l₂ d
    · exact L.live_inner hin
    · exact (L.live_splice hlive).1 fun h => h.elim hd hin

theorem lt_of_live_splice (hv : f.Valid) (hb : (p.splice f).Live b) : b < (p.splice f).blocks.length := by
  rw [length_splice]
  exact hv.live_lt (L.live_of_splice hb)

/-- The live blocks after fusion take over the code of the blocks that were live, of each once. -/
theorem perm_bodySources (hv : f.Valid) : ((p.splice f).kept.flatMap p.bodySources).Perm f.kept := by
  refine (List.perm_ext_iff_of_nodup ?_ f.nodup_kept).mpr fun d => ?_
  · refine List.nodup_flatMap.mpr ⟨fun c _ => L.nodup_bodySources c, (p.splice f).nodup_kept.imp ?_⟩
    intro c c' hne d hd hd'
    exact hne ((p.mem_bodySources.mp hd).trans (p.mem_bodySources.mp hd').symm)
  · simp only [List.mem_flatMap, Func.mem_kept, p.mem_bodySources]
    constructor
    · rintro ⟨_, ⟨_, hlive⟩, rfl⟩
      have := L.live_bodyHome.mp hlive
      exact ⟨hv.live_lt this, this⟩
    · rintro ⟨_, hlive⟩
      have hhome := L.live_bodyHome.mpr hlive
      exact ⟨_, ⟨L.lt_of_live_splice hv hhome, hhome⟩, rfl⟩

theorem effectsAt_splice (hv : f.Valid) :
    (p.splice f).effectsAt c = ((p.bodySources c).flatMap f.effectsAt).map p.renamed := by
  rw [Func.effectsAt_eq_body, L.bodyAt_splice hv, List.filter_flatMap, List.map_flatMap]
  refine List.flatMap_congr fun d _ => ?_
  simp only [Plan.bodyPart, List.filter_map, Func.effectsAt_eq_body, Function.comp_def, p.hasEffect_renamed]

/-- The plan keeps the effects of live blocks. -/
theorem perm_effects (hv : f.Valid) : (f.liveEffects.map p.renamed).Perm (p.apply f).effects := by
  have heff : (p.apply f).effects = (((p.splice f).kept.flatMap p.bodySources).flatMap f.effectsAt).map p.renamed := by
    rw [Plan.apply, Func.effects_sweep, Func.liveEffects_eq_kept, List.flatMap_assoc, List.map_flatMap]
    exact List.flatMap_congr fun c _ => L.effectsAt_splice hv
  rw [heff, Func.liveEffects_eq_kept]
  exact (((L.perm_bodySources hv).flatMap_right _).map _).symm

end Layout

/-- **Fusion neither loses nor repeats an effect**: what it gives back has the effects of the live blocks, each as the plan
renames it, and has no dead block. -/
theorem fuse_keeps_effects {f fused : Func} {l₁ l₂ : Loop} {pair : Nat} {memo memo' : Memo} {verify : Bool}
    (hvalid : f.isValid = true) (hpair : (l₁, l₂) ∈ (Snapshot.of f).candidates)
    (hlegal : ((Snapshot.of f).legality l₁ l₂ pair).answer? memo = some .legal)
    (hfuse : ((Snapshot.of f).fuse l₁ l₂ .legal verify).answer? memo' = some (.ok fused)) :
    ∃ p, ((Snapshot.of f).plan l₁ l₂ .legal).run.answer? memo' = some (.ok p) ∧
      (f.liveEffects.map p.renamed).Perm fused.effects ∧ fused.unreachableBlocks = [] := by
  have hv := Func.isValid_iff.mp hvalid
  obtain ⟨p, hplan, hcarry⟩ := Snapshot.plan_of_fuse hfuse
  have L := layout_of_plan hpair ⟨memo, hlegal⟩ ⟨memo', hplan⟩
  obtain rfl := Snapshot.eq_apply_of_carryOut hcarry
  refine ⟨p, hplan, L.perm_effects hv, List.eq_nil_iff_forall_not_mem.mpr fun b hb => ?_⟩
  obtain ⟨hlt, hdead⟩ := Func.mem_unreachableBlocks.mp hb
  -- fusion ends with a sweep
  exact hdead (Func.live_sweep hlt)

/-- Two loops that fill an array each, and a block that nothing leads to. -/
def twoFills : Func where
  name := "twoFills"
  params := []
  blocks := [
    { instrs := [{ op := .alloc 0 8 }, { op := .alloc 1 8 }], term := .jump 1 },
    { instrs := [
        { op := .phi 2 [(0, .lit (.int 0)), (1, .var 4)] },
        { op := .shift 3 (.var 0) (.var 2) },
        { op := .store (.var 3) (.var 2) },
        { op := .binary .add 4 (.var 2) (.lit (.int 1)) },
        { op := .binary .lt 5 (.var 4) (.lit (.int 8)) }],
      term := .branch (.var 5) 1 2 },
    { term := .jump 3 },
    { instrs := [
        { op := .phi 6 [(2, .lit (.int 0)), (3, .var 9)] },
        { op := .shift 7 (.var 1) (.var 6) },
        { op := .binary .div 8 (.lit (.int 8)) (.var 6) },
        { op := .store (.var 7) (.var 8) },
        { op := .binary .add 9 (.var 6) (.lit (.int 1)) },
        { op := .binary .lt 10 (.var 9) (.lit (.int 8)) }],
      term := .branch (.var 10) 3 4 },
    { term := .ret [] },
    { instrs := [{ op := .alloc 11 1 }], term := .ret [] }]

def twoFillsPair : Loop × Loop := (Snapshot.of twoFills).candidates.headD default

def twoFillsPlan : Plan where
  first := { header := 1, latch := 1, preheader := 0, exit := 2, induction := 2, body := none }
  second := { header := 3, latch := 3, preheader := 2, exit := 4, induction := 6, body := none }
  guards := none
  unify := true

/-- The allocations, the two stores and the division are kept, and the division reads the one counter that is left. -/
theorem twoFills_fuse_keeps_effects :
    ((Snapshot.of twoFills).fuse twoFillsPair.1 twoFillsPair.2 .legal true).answer? {} =
      some (.ok (twoFillsPlan.apply twoFills)) ∧
    (twoFills.liveEffects.map twoFillsPlan.renamed).Perm (twoFillsPlan.apply twoFills).effects ∧
    (twoFillsPlan.apply twoFills).unreachableBlocks = [] := by
  have hpair : (twoFillsPair.1, twoFillsPair.2) ∈ (Snapshot.of twoFills).candidates := by decide +kernel
  have hlegal : ((Snapshot.of twoFills).legality twoFillsPair.1 twoFillsPair.2 1).answer? {} = some .legal := by
    decide +kernel
  have hplan : ((Snapshot.of twoFills).plan twoFillsPair.1 twoFillsPair.2 .legal).run.answer? {} =
      some (.ok twoFillsPlan) := by decide +kernel
  have hfuse : ((Snapshot.of twoFills).fuse twoFillsPair.1 twoFillsPair.2 .legal true).answer? {} =
      some (.ok (twoFillsPlan.apply twoFills)) := by decide +kernel
  obtain ⟨p, hp, heffects⟩ := fuse_keeps_effects (by decide +kernel) hpair hlegal hfuse
  cases hp.symm.trans hplan
  exact ⟨hfuse, heffects⟩

end SsaFusion
