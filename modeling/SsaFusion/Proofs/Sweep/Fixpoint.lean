import Mathlib.Logic.Function.Iterate
import SsaFusion.Pipeline.Pass
import SsaFusion.Proofs.Sweep.Validity

/-!
# One sweep is enough

Whatever the function, a sweep leaves nothing for another one. Compaction leaves only live blocks, because the edges of
live blocks have copies even where they lead to no block (`live_label`). Pruning goes on as long as a round removes an
instruction, so there are no more rounds than instructions (`pruneAll_rounds`), and after the last one every instruction
has an effect or a result that is read (`isLive_of_mem_pruneAll`). A sweep of such a function does nothing.
-/

namespace SsaFusion

namespace Func

variable {f : Func} {i : Instr}

/-! ## Rounds of pruning -/

theorem instrs_prune (f : Func) : f.prune.instrs = f.instrs.filter (isLive f.reads) := by
  simp [prune, mapBlocks, instrs, List.flatMap_map, List.filter_flatMap]

/-- A round of pruning that removes no instruction finds all of them live. -/
theorem isLive_of_not_fewer (h : ¬f.prune.instrs.length < f.instrs.length) : ∀ i ∈ f.instrs, isLive f.reads i = true := by
  rw [instrs_prune] at h
  have hlength := Nat.le_antisymm (List.length_filter_le ..) (Nat.le_of_not_lt h)
  exact List.length_filter_eq_length_iff.mp hlength

theorem prune_eq_self (h : ∀ i ∈ f.instrs, isLive f.reads i = true) : f.prune = f := by
  have hblock : ∀ b ∈ f.blocks, { b with instrs := b.instrs.filter (isLive f.reads) } = b := by
    intro b hb
    rw [List.filter_eq_self.mpr fun i hi => h i (List.mem_flatMap.mpr ⟨b, hb, hi⟩)]
  unfold prune mapBlocks
  simp only
  rw [List.map_congr_left hblock, List.map_id']

theorem not_fewer_pruneAll (f : Func) : ¬f.pruneAll.prune.instrs.length < f.pruneAll.instrs.length := by
  fun_induction pruneAll f with
  | case1 f _ ih => exact ih
  | case2 f h => exact h

theorem isLive_of_mem_pruneAll : ∀ i ∈ f.pruneAll.instrs, isLive f.pruneAll.reads i = true :=
  isLive_of_not_fewer f.not_fewer_pruneAll

/-- Pruning is a number of rounds of which each removes an instruction. -/
theorem pruneAll_rounds (f : Func) : ∃ n, f.pruneAll = prune^[n] f ∧ n + f.pruneAll.instrs.length ≤ f.instrs.length ∧
    ∀ k < n, (prune^[k + 1] f).instrs.length < (prune^[k] f).instrs.length := by
  fun_induction pruneAll f with
  | case1 f hfewer ih =>
    obtain ⟨n, hn, hle, hrounds⟩ := ih
    refine ⟨n + 1, hn, by omega, fun k hk => ?_⟩
    cases k with
    | zero => exact hfewer
    | succ k => exact hrounds k (by omega)
  | case2 f _ => exact ⟨0, rfl, by omega, fun k hk => absurd hk (Nat.not_lt_zero k)⟩

/-! ## Nothing is left -/

/-- Nothing is left to sweep: every block is live, no instruction is empty, and an instruction without effect has a result
that is read. -/
structure Swept (f : Func) : Prop where
  live : ∀ b, b < f.blocks.length → f.Live b
  noNop : ∀ i ∈ f.instrs, i.op ≠ .nop
  read : ∀ i ∈ f.instrs, i.hasEffect = false → ∀ d, i.dest? = some d → 0 < f.useCount d

theorem sweep_swept (f : Func) : f.sweep.Swept where
  live _ hb := live_sweep hb
  noNop i hi hnop := by
    have hlive : isLive f.sweep.reads i = true := isLive_of_mem_pruneAll i hi
    simp [isLive, Instr.hasEffect, hnop, Op.hasEffect] at hlive
  read i hi heffect d hd := by
    have hlive : isLive f.sweep.reads i = true := isLive_of_mem_pruneAll i hi
    rw [isLive, heffect, Bool.false_or, Bool.and_eq_true, hd] at hlive
    exact List.count_pos_iff.mpr (by simpa using hlive.2)

theorem Swept.isLive (h : f.Swept) : ∀ i ∈ f.instrs, isLive f.reads i = true := by
  intro i hi
  rw [Func.isLive, Bool.or_eq_true, Bool.and_eq_true]
  cases heffect : i.hasEffect with
  | true => exact Or.inl rfl
  | false =>
    refine Or.inr ⟨by simpa using h.noNop i hi, ?_⟩
    rw [Option.all_eq_true]
    intro d hd
    exact List.contains_iff_mem.mpr (List.count_pos_iff.mp (h.read i hi heffect d hd))

/-- A sweep of a function in which nothing is left to sweep changes nothing and says so. -/
theorem Swept.sweepTraced_value (h : f.Swept) : f.sweepTraced.value = ⟨f, false⟩ := by
  have hdead : f.unreachableBlocks = [] := by
    refine List.eq_nil_iff_forall_not_mem.mpr fun b hb => ?_
    obtain ⟨hlt, hnot⟩ := mem_unreachableBlocks.mp hb
    exact hnot (h.live b hlt)
  have hcompact : f.compact = f := if_pos (List.isEmpty_iff.mpr hdead)
  have hprune : f.pruneAll = f := by
    rw [pruneAll, if_neg]
    rw [prune_eq_self h.isLive]
    exact Nat.lt_irrefl _
  have hsweep : f.sweep = f := by rw [sweep, hcompact, hprune]
  rw [Func.sweepTraced_value, hsweep, hcompact, hdead]
  simp

end Func

/-- **Dead code elimination is done after one run**, on every function. Its first part leaves live blocks only; its second
takes a number of rounds, at most one for each instruction, of which each removes an instruction and after which another
would remove none. What it leaves has no empty instruction and no result without effect that is never read, and a second
run gives the same function back and reports no change. -/
theorem Pass.deadCode_once (f : Func) :
    ∃ c, (Pass.deadCode.run f).result? = some c ∧ c.func.Swept ∧
      (Pass.deadCode.run c.func).result? = some ⟨c.func, false⟩ ∧
      ∃ n ≤ f.compact.instrs.length, c.func = Func.prune^[n] f.compact ∧
        (∀ k < n, (Func.prune^[k + 1] f.compact).instrs.length < (Func.prune^[k] f.compact).instrs.length) ∧
        Func.prune^[n + 1] f.compact = Func.prune^[n] f.compact := by
  obtain ⟨n, hn, hle, hrounds⟩ := f.compact.pruneAll_rounds
  refine ⟨f.sweepTraced.value, rfl, ?_⟩
  rw [f.value_sweepTraced]
  refine ⟨f.sweep_swept, congrArg some f.sweep_swept.sweepTraced_value, n, by omega, hn, hrounds, ?_⟩
  rw [Function.iterate_succ_apply', ← hn]
  exact Func.prune_eq_self Func.isLive_of_mem_pruneAll

end SsaFusion
