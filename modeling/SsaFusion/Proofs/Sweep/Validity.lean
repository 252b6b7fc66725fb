import Mathlib.Data.List.Flatten
import SsaFusion.Proofs.Sweep.Compact

/-!
# Sweeping a function

A sweep makes a function valid if its live part is (`LiveValid`): compaction removes the dead blocks and the phi sources
that name them, and pruning removes no definition that is read. The phis of some values may be excused from having a
source for every edge; then the result is valid exactly if the sweep removed them (`sweep_valid_iff`).
-/

namespace SsaFusion

namespace Func

variable {f : Func} {excused : ValueId → Prop} {b : BlockId} {v : ValueId}

/-- The sources of a phi fit the live edges into its block; sources from dead blocks do not count. -/
structure LivePhiOk (f : Func) (b : BlockId) (sources : List (BlockId × Operand)) : Prop where
  known : ∀ s ∈ sources, s.1 < f.blocks.length
  edges : ∀ s ∈ sources, f.Live s.1 → b ∈ f.successors s.1
  once : ∀ p, f.Live p → b ∈ f.successors p → sources.countP (·.1 == p) = 1
  reads : ∀ s ∈ sources, f.Live s.1 → ∀ v, s.2.var? = some v → f.AvailableOut s.1 v

/-- The live part of a function is valid, but for the phis of excused values. -/
structure LiveValid (f : Func) (excused : ValueId → Prop) : Prop where
  entry : f.entry < f.blocks.length
  targets : ∀ b, f.Live b → ∀ t ∈ f.successors b, t < f.blocks.length
  phisFirst : ∀ b, f.Live b → ∀ i ∈ f.bodyAt b, i.isPhi = false
  once : f.defined.Nodup
  reads : ∀ b, f.Live b → ReadsOk (f.AvailableIn b) (f.instrsOf b)
  termReads : ∀ b, f.Live b → ∀ t, f.term? b = some t → ∀ v ∈ valuesOf t.operands, f.AvailableOut b v
  phis : ∀ b, f.Live b → ∀ i ∈ f.instrsOf b, ∀ sources, i.sources? = some sources →
    (∀ d, i.dest? = some d → ¬excused d) → f.LivePhiOk b sources

/-- Every phi of an excused value lacks a source for some live edge into its block. -/
def Lacking (f : Func) (excused : ValueId → Prop) : Prop :=
  ∀ b, f.Live b → ∀ i ∈ f.instrsOf b, ∀ sources, i.sources? = some sources →
    (∃ d, i.dest? = some d ∧ excused d) → ∃ p, f.Live p ∧ b ∈ f.successors p ∧ sources.countP (·.1 == p) = 0

theorem LiveValid.live_lt (h : f.LiveValid excused) (hb : f.Live b) : b < f.blocks.length := by
  rw [live_iff_reaches] at hb
  cases hb with
  | refl => exact h.entry
  | tail hr hs _ => exact h.targets _ (live_iff_reaches.mpr hr) _ hs

/-! ## Without dead blocks -/

section AllLive

variable (hall : ∀ b, b < f.blocks.length → f.Live b)

include hall

/-- A function without dead blocks is valid if its live part is and nothing is excused. -/
theorem LiveValid.valid (h : f.LiveValid excused)
    (hno : ∀ i ∈ f.instrs, i.isPhi = true → ∀ d, i.dest? = some d → ¬excused d) : f.Valid := by
  have live_of_block : ∀ {b blk}, f.block? b = some blk → f.Live b :=
    fun hb => hall _ (List.getElem?_eq_some_iff.mp hb).1
  refine ⟨h.entry, fun b t ht => ?_, fun b i hi => ?_, h.once, h.reads, h.termReads, fun b hb i hi sources hs => ?_⟩
  · obtain ⟨blk, hblk, _⟩ := mem_successors.mp ht
    exact h.targets b (live_of_block hblk) t ht
  · cases hblk : f.block? b with
    | none => simp [bodyAt, hblk] at hi
    | some blk => exact h.phisFirst b (live_of_block hblk) i hi
  · have hmem : i ∈ f.instrs := by
      cases hblk : f.block? b with
      | none => simp [instrsOf, hblk] at hi
      | some blk =>
        rw [instrsOf_eq hblk] at hi
        exact List.mem_flatMap.mpr ⟨blk, List.mem_of_getElem? hblk, hi⟩
    have hok := h.phis b hb i hi sources hs (hno i hmem ((Instr.isPhi_iff_sources i).mpr ⟨sources, hs⟩))
    exact ⟨fun s hsm => hok.edges s hsm (hall _ (hok.known s hsm)), hok.once, hok.reads⟩

/-- A phi that lacks a source is a defect. -/
theorem Lacking.not_valid (h : f.Lacking excused) {i : Instr} (hi : i ∈ f.instrs) (hphi : i.isPhi = true) {d : ValueId}
    (hd : i.dest? = some d) (hx : excused d) : ¬f.Valid := by
  intro hv
  obtain ⟨blk, hblk, hi⟩ := List.mem_flatMap.mp hi
  obtain ⟨b, hblk⟩ := List.getElem?_of_mem hblk
  have hmem : i ∈ f.instrsOf b := by rwa [instrsOf_eq hblk]
  have hb : f.Live b := hall b (List.getElem?_eq_some_iff.mp hblk).1
  obtain ⟨sources, hs⟩ := (Instr.isPhi_iff_sources i).mp hphi
  obtain ⟨p, hp, hsucc, hzero⟩ := h b hb i hmem sources hs ⟨d, hd, hx⟩
  have := (hv.phis b hb i hmem sources hs).once p hp hsucc
  omega

end AllLive

/-! ## Compaction -/

theorem dests_compact : f.compact.dests = f.kept.flatMap f.destsAt := by
  rw [dests_eq_range, List.flatMap_def, List.flatMap_def, map_range_compact fun b hb => destsAt_compact hb]

theorem nodup_compact (h : f.defined.Nodup) : f.compact.defined.Nodup := by
  have hsub : f.compact.dests.Sublist f.dests := by
    rw [dests_compact, dests_eq_range]
    exact List.Sublist.flatMap List.filter_sublist f.destsAt
  unfold defined
  rw [params_compact]
  exact ((List.Sublist.refl _).append hsub).nodup h

section Compact

variable (h : f.LiveValid excused)

include h

/-- The sources of a phi after compaction. -/
theorem countP_compact {sources : List (BlockId × Operand)} (hknown : ∀ s ∈ sources, s.1 < f.blocks.length) {p : BlockId}
    (hp : f.Live p) :
    (((sources.filter fun s => !f.unreachableBlocks.contains s.1).map fun s => (f.label s.1, s.2)).countP
      (·.1 == f.label p)) = sources.countP (·.1 == p) := by
  rw [List.countP_map, List.countP_filter]
  refine List.countP_congr fun s hs => ?_
  have hlt := h.live_lt hp
  simp only [Function.comp_apply, Bool.and_eq_true, beq_iff_eq, Bool.not_eq_true', ← Bool.not_eq_true,
    List.contains_iff_mem, mem_unreachableBlocks, not_and, not_not]
  constructor
  · rintro ⟨e, hlive⟩
    exact label_inj (mem_kept.mpr ⟨hknown s hs, hlive (hknown s hs)⟩) (mem_kept.mpr ⟨hlt, hp⟩) e
  · rintro rfl
    exact ⟨rfl, fun _ => hp⟩

theorem LivePhiOk.compact {sources : List (BlockId × Operand)} (hok : f.LivePhiOk b sources) (hb : f.Live b) :
    f.compact.LivePhiOk (f.label b)
      ((sources.filter fun s => !f.unreachableBlocks.contains s.1).map fun s => (f.label s.1, s.2)) := by
  have hr : ∀ b, f.Live b → b < f.blocks.length := fun b => h.live_lt
  -- what compaction keeps of the sources comes from live blocks
  have hlive : ∀ s ∈ sources.filter (fun s => !f.unreachableBlocks.contains s.1), s ∈ sources ∧ f.Live s.1 := by
    intro s hs
    rw [List.mem_filter] at hs
    refine ⟨hs.1, ?_⟩
    by_contra hdead
    have hmem := mem_unreachableBlocks.mpr ⟨hok.known s hs.1, hdead⟩
    simp [hmem] at hs
  refine ⟨fun s' hs' => ?_, fun s' hs' _ => ?_, fun p' hp' hsucc => ?_, fun s' hs' _ v hv => ?_⟩
  · obtain ⟨s, hs, rfl⟩ := List.mem_map.mp hs'
    have hk := getElem?_label (mem_kept_of_live hr (hlive s hs).2)
    rw [length_compact]
    exact (List.getElem?_eq_some_iff.mp hk).1
  · obtain ⟨s, hs, rfl⟩ := List.mem_map.mp hs'
    obtain ⟨hmem, hl⟩ := hlive s hs
    exact (mem_successors_compact hr hl hb).mpr (hok.edges s hmem hl)
  · obtain ⟨p, hp, rfl⟩ := (live_compact hr).mp hp'
    rw [countP_compact h hok.known hp]
    exact hok.once p hp ((mem_successors_compact hr hp hb).mp hsucc)
  · obtain ⟨s, hs, rfl⟩ := List.mem_map.mp hs'
    obtain ⟨hmem, hl⟩ := hlive s hs
    exact (availableOut_compact hr hl).mpr (hok.reads s hmem hl v hv)

/-- Compaction keeps the live part of a function valid. -/
theorem LiveValid.compact : f.compact.LiveValid excused := by
  have hr : ∀ b, f.Live b → b < f.blocks.length := fun b => h.live_lt
  refine ⟨?_, ?_, ?_, nodup_compact h.once, ?_, ?_, ?_⟩
  · rw [length_compact, entry_compact]
    exact (List.getElem?_eq_some_iff.mp (getElem?_label (mem_kept_of_live hr live_entry))).1
  · intro n hn t ht
    obtain ⟨b, hb, rfl⟩ := (live_compact hr).mp hn
    rw [successors_compact hr hb] at ht
    obtain ⟨c, hc, rfl⟩ := List.mem_map.mp ht
    rw [length_compact]
    exact (List.getElem?_eq_some_iff.mp (getElem?_label (mem_kept_of_live hr (hb.step hc)))).1
  · intro n hn i hi
    obtain ⟨b, hb, rfl⟩ := (live_compact hr).mp hn
    obtain ⟨blk, hblk⟩ : ∃ blk, f.block? b = some blk := ⟨_, List.getElem?_eq_getElem (hr b hb)⟩
    simp only [bodyAt, block?_compact (mem_kept_of_live hr hb), hblk, Option.map_some, Option.getD_some] at hi
    have hbody : (relabel f.kept f.unreachableBlocks blk).body = blk.body.map fun i =>
        (i.keepSources (!f.unreachableBlocks.contains ·)).mapSourceBlocks f.label :=
      Block.body_mapInstrs blk fun i => by simp
    rw [hbody] at hi
    obtain ⟨j, hj, rfl⟩ := List.mem_map.mp hi
    have := h.phisFirst b hb j (by simpa [bodyAt, hblk] using hj)
    simpa using this
  · intro n hn
    obtain ⟨b, hb, rfl⟩ := (live_compact hr).mp hn
    rw [instrsOf_compact (mem_kept_of_live hr hb), ReadsOk.map (by simp) (by simp)]
    · exact (h.reads b hb).mono fun v hv => (availableIn_compact hr hb).mpr hv
    · intro i hi
      rw [Instr.keepSources_of_not_phi i _ hi, Instr.mapSourceBlocks_of_not_phi i _ hi]
  · intro n hn t ht v hv
    obtain ⟨b, hb, rfl⟩ := (live_compact hr).mp hn
    rw [term?_compact (mem_kept_of_live hr hb)] at ht
    obtain ⟨t', ht', rfl⟩ := Option.map_eq_some_iff.mp ht
    rw [Terminator.operands_mapTargets] at hv
    exact (availableOut_compact hr hb).mpr (h.termReads b hb t' ht' v hv)
  · intro n hn i hi sources hs hx
    obtain ⟨b, hb, rfl⟩ := (live_compact hr).mp hn
    rw [instrsOf_compact (mem_kept_of_live hr hb)] at hi
    obtain ⟨j, hj, rfl⟩ := List.mem_map.mp hi
    simp only [Instr.sources?_mapSourceBlocks, Instr.sources?_keepSources, Option.map_map, Option.map_eq_some_iff] at hs
    obtain ⟨sources, hs, rfl⟩ := hs
    exact (h.phis b hb j hj sources hs (by simpa using hx)).compact h hb

theorem Lacking.compact (hl : f.Lacking excused)
    (hknown : ∀ b, f.Live b → ∀ i ∈ f.instrsOf b, ∀ sources, i.sources? = some sources →
      ∀ s ∈ sources, s.1 < f.blocks.length) : f.compact.Lacking excused := by
  have hr : ∀ b, f.Live b → b < f.blocks.length := fun b => h.live_lt
  intro n hn i hi sources hs hx
  obtain ⟨b, hb, rfl⟩ := (live_compact hr).mp hn
  rw [instrsOf_compact (mem_kept_of_live hr hb)] at hi
  obtain ⟨j, hj, rfl⟩ := List.mem_map.mp hi
  simp only [Instr.sources?_mapSourceBlocks, Instr.sources?_keepSources, Option.map_map, Option.map_eq_some_iff] at hs
  obtain ⟨sources, hs, rfl⟩ := hs
  obtain ⟨p, hp, hsucc, hzero⟩ := hl b hb j hj sources hs (by simpa using hx)
  refine ⟨f.label p, (live_compact hr).mpr ⟨p, hp, rfl⟩, (mem_successors_compact hr hp hb).mpr hsucc, ?_⟩
  rw [← hzero]
  exact countP_compact h (hknown b hb j hj sources hs) hp

end Compact

/-! ## Pruning -/

theorem ReadsOk.filter {avail avail' wanted : ValueId → Prop} {p : Instr → Bool} {is : List Instr}
    (h : ReadsOk avail is) (hp : ∀ i ∈ is, ∀ v ∈ i.reads, wanted v)
    (hkeep : ∀ i ∈ is, ∀ v, i.dest? = some v → wanted v → p i = true)
    (hle : ∀ v, wanted v → avail v → avail' v) : ReadsOk avail' (is.filter p) := by
  induction is generalizing avail avail' with
  | nil => trivial
  | cons i rest ih =>
    rw [List.forall_mem_cons] at hp hkeep
    rw [List.filter_cons]
    split
    · refine ⟨fun hi v hv => hle v (hp.1 v hv) (h.1 hi v hv), ih h.2 hp.2 hkeep.2 fun v hw hv => ?_⟩
      exact hv.imp_left (hle v hw)
    · rename_i hi
      refine ih h.2 hp.2 hkeep.2 fun v hw hv => ?_
      rcases hv with hv | hv
      · exact hle v hw hv
      · exact absurd (hkeep.1 v hv hw) hi

section Prune

theorem block?_prune : f.prune.block? b =
    (f.block? b).map fun blk => { blk with instrs := blk.instrs.filter (isLive f.reads) } := by
  simp [prune, mapBlocks, block?]

theorem instrsOf_prune : f.prune.instrsOf b = (f.instrsOf b).filter (isLive f.reads) := by
  unfold instrsOf
  rw [block?_prune]
  cases f.block? b <;> rfl

theorem term?_prune : f.prune.term? b = f.term? b := by
  unfold term?
  rw [block?_prune]
  cases f.block? b <;> rfl

theorem successors_prune : f.prune.successors = f.successors := by
  funext b
  unfold successors
  rw [term?_prune]

@[simp] theorem live_prune : f.prune.Live b ↔ f.Live b := by
  unfold Live
  rw [successors_prune]
  rfl

@[simp] theorem dominates_prune {a : BlockId} : f.prune.Dominates a b ↔ f.Dominates a b := by
  unfold Dominates
  rw [successors_prune]
  rfl

theorem length_prune : f.prune.blocks.length = f.blocks.length := by
  simp [prune, mapBlocks]

theorem mem_reads_of_instr {i : Instr} (hi : i ∈ f.instrsOf b) (hv : v ∈ i.reads) : v ∈ f.reads := by
  cases hblk : f.block? b with
  | none => simp [instrsOf, hblk] at hi
  | some blk =>
    rw [instrsOf_eq hblk] at hi
    refine List.mem_flatMap.mpr ⟨blk, List.mem_of_getElem? hblk, List.mem_append_left _ ?_⟩
    exact List.mem_flatMap.mpr ⟨i, hi, hv⟩

theorem mem_reads_of_term {t : Terminator} (ht : f.term? b = some t) (hv : v ∈ valuesOf t.operands) : v ∈ f.reads := by
  obtain ⟨blk, hblk, rfl⟩ := Option.map_eq_some_iff.mp ht
  refine List.mem_flatMap.mpr ⟨blk, List.mem_of_getElem? hblk, List.mem_append_right _ ?_⟩
  simpa [Terminator.uses] using hv

/-- Pruning keeps the definition of every value that is read. -/
theorem isLive_of_read {i : Instr} (hd : i.dest? = some v) (hv : v ∈ f.reads) : isLive f.reads i = true := by
  have hnop : i.op ≠ .nop := by
    intro e
    rw [Instr.dest?, e] at hd
    cases hd
  simp [isLive, hd, hv, hnop]

theorem mem_destsAt_prune (hv : v ∈ f.reads) : v ∈ f.prune.destsAt b ↔ v ∈ f.destsAt b := by
  rw [mem_destsAt, mem_destsAt, instrsOf_prune]
  simp only [List.mem_filter]
  constructor
  · rintro ⟨i, hi, hd⟩
    exact ⟨i, hi.1, hd⟩
  · rintro ⟨i, hi, hd⟩
    exact ⟨i, ⟨hi, isLive_of_read hd hv⟩, hd⟩

theorem availableIn_prune (hv : v ∈ f.reads) : f.prune.AvailableIn b v ↔ f.AvailableIn b v := by
  simp only [AvailableIn, StrictlyDominates, dominates_prune, mem_destsAt_prune hv]
  rfl

theorem availableOut_prune (hv : v ∈ f.reads) : f.prune.AvailableOut b v ↔ f.AvailableOut b v := by
  simp only [AvailableOut, dominates_prune, mem_destsAt_prune hv]
  rfl

theorem nodup_prune (h : f.defined.Nodup) : f.prune.defined.Nodup := by
  have hsub : f.prune.dests.Sublist f.dests := by
    rw [dests_eq_range, dests_eq_range, length_prune]
    refine List.Sublist.flatMap_right _ fun b _ => ?_
    rw [destsAt, instrsOf_prune]
    exact List.filter_sublist.filterMap _
  exact ((List.Sublist.refl _).append hsub).nodup h

theorem LivePhiOk.prune {sources : List (BlockId × Operand)} (h : f.LivePhiOk b sources) {i : Instr}
    (hi : i ∈ f.instrsOf b) (hs : i.sources? = some sources) : f.prune.LivePhiOk b sources := by
  refine ⟨fun s hsm => ?_, fun s hsm hl => ?_, fun p hp hsucc => ?_, fun s hsm hl v hv => ?_⟩
  · rw [length_prune]
    exact h.known s hsm
  · rw [successors_prune]
    exact h.edges s hsm (live_prune.mp hl)
  · exact h.once p (live_prune.mp hp) (successors_prune ▸ hsucc)
  · have hread : v ∈ i.reads := by
      refine (Instr.mem_reads_of_sources i hs).mpr ⟨s, hsm, ?_⟩
      obtain ⟨q, o⟩ := s
      cases o with
      | lit => cases hv
      | var w => cases hv; rfl
    exact (availableOut_prune (mem_reads_of_instr hi hread)).mpr (h.reads s hsm (live_prune.mp hl) v hv)

/-- Pruning keeps the live part of a function valid. -/
theorem LiveValid.prune (h : f.LiveValid excused) : f.prune.LiveValid excused := by
  refine ⟨?_, ?_, ?_, nodup_prune h.once, ?_, ?_, ?_⟩
  · rw [length_prune]
    exact h.entry
  · intro b hb t ht
    rw [successors_prune] at ht
    rw [length_prune]
    exact h.targets b (live_prune.mp hb) t ht
  · intro b hb i hi
    obtain ⟨blk, hblk⟩ : ∃ blk, f.block? b = some blk := ⟨_, List.getElem?_eq_getElem (h.live_lt (live_prune.mp hb))⟩
    have hbody := (blk.split_filter (isLive f.reads) fun j hj => h.phisFirst b (live_prune.mp hb) j (by simpa [bodyAt, hblk])).2
    simp only [bodyAt, block?_prune, hblk, Option.map_some, Option.getD_some, hbody] at hi
    exact h.phisFirst b (live_prune.mp hb) i (by simpa [bodyAt, hblk] using (List.mem_filter.mp hi).1)
  · intro b hb
    rw [instrsOf_prune]
    exact ReadsOk.filter (h.reads b (live_prune.mp hb)) (fun i hi v hv => mem_reads_of_instr hi hv)
      (fun i _ v hd hv => isLive_of_read hd hv) fun v hv => (availableIn_prune hv).mpr
  · intro b hb t ht v hv
    rw [term?_prune] at ht
    exact (availableOut_prune (mem_reads_of_term ht hv)).mpr (h.termReads b (live_prune.mp hb) t ht v hv)
  · intro b hb i hi sources hs hx
    rw [instrsOf_prune] at hi
    have hi := (List.mem_filter.mp hi).1
    exact (h.phis b (live_prune.mp hb) i hi sources hs hx).prune hi hs

theorem Lacking.prune (h : f.Lacking excused) : f.prune.Lacking excused := by
  intro b hb i hi sources hs hx
  rw [instrsOf_prune] at hi
  obtain ⟨p, hp, hsucc, hzero⟩ := h b (live_prune.mp hb) i (List.mem_filter.mp hi).1 sources hs hx
  exact ⟨p, live_prune.mpr hp, by rwa [successors_prune], hzero⟩

/-- What one round of pruning keeps, all rounds keep. -/
theorem pruneAll_induction {P : Func → Prop} (hstep : ∀ g, P g → P g.prune) (f : Func) (h : P f) : P f.pruneAll := by
  fun_induction pruneAll f with
  | case1 f _ ih => exact ih (hstep f h)
  | case2 f _ => exact h

end Prune

/-! ## The sweep -/

/-- A sweep leaves no dead block. -/
theorem live_sweep (hb : b < f.sweep.blocks.length) : f.sweep.Live b := by
  refine pruneAll_induction (P := fun g => ∀ b, b < g.blocks.length → g.Live b) (fun g hg b hb => ?_) f.compact
    (fun b => live_compact_of_lt) b hb
  rw [length_prune] at hb
  exact live_prune.mpr (hg b hb)

/-- What a sweep reports. -/
theorem sweepTraced_value (f : Func) : f.sweepTraced.value =
    ⟨f.sweep, !f.unreachableBlocks.isEmpty || decide (f.sweep.instrs.length < f.compact.instrs.length)⟩ := by
  unfold sweepTraced sweep
  simp only
  split <;> rfl

theorem value_sweepTraced (f : Func) : f.sweepTraced.value.func = f.sweep := by rw [sweepTraced_value]

/-- Sweeping a function whose live part is valid gives a valid function, unless a phi that lacks a source stays. -/
theorem sweep_valid_iff (h : f.LiveValid excused) (hl : f.Lacking excused)
    (hknown : ∀ b, f.Live b → ∀ i ∈ f.instrsOf b, ∀ sources, i.sources? = some sources →
      ∀ s ∈ sources, s.1 < f.blocks.length) :
    f.sweep.Valid ↔ ∀ i ∈ f.sweep.instrs, i.isPhi = true → ∀ d, i.dest? = some d → ¬excused d := by
  obtain ⟨hvalid, hlack⟩ : f.sweep.LiveValid excused ∧ f.sweep.Lacking excused :=
    pruneAll_induction (P := fun g => g.LiveValid excused ∧ g.Lacking excused) (fun g hg => ⟨hg.1.prune, hg.2.prune⟩)
      f.compact ⟨h.compact, hl.compact h hknown⟩
  have hall : ∀ b, b < f.sweep.blocks.length → f.sweep.Live b := fun b => live_sweep
  constructor
  · intro hv i hi hphi d hd hx
    exact hlack.not_valid hall hi hphi hd hx hv
  · exact hvalid.valid hall

/-! ## Valid functions -/

theorem Valid.source_lt (h : f.Valid) (hb : f.Live b) {i : Instr} (hi : i ∈ f.instrsOf b) {sources : List (BlockId × Operand)}
    (hs : i.sources? = some sources) : ∀ s ∈ sources, s.1 < f.blocks.length := by
  intro s hsm
  obtain ⟨blk, hblk, _⟩ := mem_successors.mp ((h.phis b hb i hi sources hs).edges s hsm)
  exact (List.getElem?_eq_some_iff.mp hblk).1

theorem Valid.liveValid (h : f.Valid) : f.LiveValid fun _ => False := by
  refine ⟨h.entry, fun b _ => h.targets b, fun b _ => h.phisFirst b, h.once, h.reads, h.termReads, ?_⟩
  intro b hb i hi sources hs _
  have hok := h.phis b hb i hi sources hs
  exact ⟨h.source_lt hb hi hs, fun s hsm _ => hok.edges s hsm, hok.once, hok.reads⟩

/-- A sweep keeps a function valid. -/
theorem Valid.sweep (h : f.Valid) : f.sweep.Valid := by
  have hlack : f.Lacking fun _ => False := fun _ _ _ _ _ _ ⟨_, _, hx⟩ => hx.elim
  refine (sweep_valid_iff h.liveValid hlack fun b hb i hi sources hs => h.source_lt hb hi hs).mpr ?_
  exact fun _ _ _ _ _ => id

end Func

end SsaFusion
