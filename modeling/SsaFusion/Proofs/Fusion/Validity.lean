import SsaFusion.Fusion.Rounds
import SsaFusion.Proofs.Fusion.Sources

/-!
# Plans give valid functions

Carrying out the plan of a legal pair in a valid function gives a function whose live part is valid, but for phis of the
second guard: they go to the join, and if control has a third way there, they lack a source for it. So the result is valid
exactly if no such phi survives the sweep or there is no such way (`apply_valid_iff`).
-/

namespace SsaFusion

open Plan (phiDests bodyDests)

/-- Every phi of the second guard that survives the fusion has a source for each way into the join. -/
def Plan.JoinFits (p : Plan) (f : Func) : Prop :=
  ∀ g, p.guards = some g → (∃ i ∈ (p.apply f).instrs, i.isPhi = true ∧ ∃ v ∈ phiDests f g.second, i.dest? = some v) →
    ∀ q, f.Live q → g.join ∈ f.successors q → q = g.second ∨ q = p.second.exit

namespace Layout

variable {f : Func} {l₁ l₂ : Loop} {p : Plan} {b c d : BlockId} {v : ValueId} (L : Layout f l₁ l₂ p) (hv : f.Valid)

/-- The phis of the second guard, if there is a third way into the join. -/
def Excused (f : Func) (p : Plan) (v : ValueId) : Prop :=
  ∃ g, p.guards = some g ∧ v ∈ phiDests f g.second ∧ Bypassed f p g

include L hv

/-! ## The live part of the fused function -/

/-- The phis of the fused function come from those of the original. -/
theorem phi_splice (hc : (p.splice f).Live c) {i : Instr} (hi : i ∈ (p.splice f).instrsOf c)
    {sources : List (BlockId × Operand)} (hs : i.sources? = some sources) :
    ∃ d j old, c = p.phiHome d ∧ f.Live d ∧ j ∈ f.phisAt d ∧ p.stays j = true ∧ i.dest? = j.dest? ∧
      j.sources? = some old ∧ sources = old.map fun s => (p.sourceName s.1, p.sourceOperand f d s) := by
  have hphi : i.isPhi = true := i.isPhi_iff_sources.mpr ⟨sources, hs⟩
  rw [← Func.phisAt_append_bodyAt, List.mem_append, L.phisAt_splice hv, L.bodyAt_splice hv] at hi
  rcases hi with hi | hi
  · obtain ⟨d, hd, hi⟩ := List.mem_flatMap.mp hi
    obtain ⟨j, hj, rfl⟩ := List.mem_map.mp hi
    obtain ⟨hj, hstay⟩ := List.mem_filter.mp hj
    rw [p.sources?_phiPart] at hs
    obtain ⟨old, hold, rfl⟩ := Option.map_eq_some_iff.mp hs
    rw [p.mem_phiSources] at hd
    refine ⟨d, j, old, hd, ?_, hj, hstay, by simp, hold, rfl⟩
    by_cases hr : p.Removed d
    · exact L.live_of_late (Or.inl hr)
    · rw [phiHome_kept hr] at hd
      exact hd ▸ L.live_of_splice hc
  · obtain ⟨d, _, hi⟩ := List.mem_flatMap.mp hi
    rw [isPhi_of_mem_bodyPart hv hi] at hphi
    cases hphi

/-- A phi with renamed sources fits the edges of the fused function. -/
theorem livePhiOk_splice (hd : f.Live d) {j : Instr} (hj : j ∈ f.phisAt d) (hstay : p.stays j = true)
    {old : List (BlockId × Operand)} (hs : j.sources? = some old)
    (hno : ∀ g, p.guards = some g → d = g.second → ¬Bypassed f p g) :
    (p.splice f).LivePhiOk (p.phiHome d) (old.map fun s => (p.sourceName s.1, p.sourceOperand f d s)) := by
  have hok := hv.phis d hd j (Func.mem_instrsOf_of_phi hj) old hs
  obtain ⟨w, hw⟩ := j.dest?_isSome_of_isPhi (f.isPhi_of_mem_phisAt hj)
  have hphi : w ∈ phiDests f d := List.mem_filterMap.mpr ⟨j, hj, hw⟩
  have hlt : ∀ s ∈ old, s.1 < f.blocks.length := fun s hsm => by
    obtain ⟨blk, hblk, _⟩ := Func.mem_successors.mp (hok.edges s hsm)
    exact (List.getElem?_eq_some_iff.mp hblk).1
  refine ⟨fun t ht => ?_, fun t ht hlive => ?_, fun q hq hstep => ?_, fun t ht hlive v hvar => ?_⟩
  · obtain ⟨s, hsm, rfl⟩ := List.mem_map.mp ht
    rw [length_splice]
    exact L.sourceName_lt hv (hlt s hsm)
  · obtain ⟨s, hsm, rfl⟩ := List.mem_map.mp ht
    exact L.edge_splice hphi (hok.edges s hsm) hlive
  · obtain ⟨a, ha, rfl⟩ := L.exists_source hphi hq hstep hno
    rw [List.countP_map, ← hok.once a (L.live_of_sourceName hq) ha]
    refine List.countP_congr fun s hsm => ?_
    simp only [Function.comp_apply, beq_iff_eq]
    exact ⟨L.sourceName_inj (hok.edges s hsm) ha, fun e => e ▸ rfl⟩
  · obtain ⟨s, hsm, rfl⟩ := List.mem_map.mp ht
    refine L.sourceOperand_reads hv hd hj hstay hs hsm hlive ?_
    revert hvar
    cases p.sourceOperand f d s with
    | lit l => exact fun h => by cases h
    | var u => exact fun h => by cases h; rfl

theorem liveValid_splice : (p.splice f).LiveValid (Excused f p) := by
  refine ⟨by simpa using hv.entry, fun b hb t ht => ?_, fun b hb i hi => ?_, L.nodup_defined_splice hv,
    fun b hb => L.reads_splice hv hb, fun b hb t ht => L.termReads_splice hv hb ht, fun b hb i hi sources hs hno => ?_⟩
  · rw [length_splice]
    exact hv.live_lt (L.live_of_splice (hb.step ht))
  · rw [L.bodyAt_splice hv] at hi
    obtain ⟨d, _, hi⟩ := List.mem_flatMap.mp hi
    exact isPhi_of_mem_bodyPart hv hi
  · obtain ⟨d, j, old, rfl, hd, hj, hstay, hdest, hold, rfl⟩ := L.phi_splice hv hb hi hs
    refine L.livePhiOk_splice hv hd hj hstay hold fun g hg e hby => ?_
    obtain ⟨w, hw⟩ := j.dest?_isSome_of_isPhi (f.isPhi_of_mem_phisAt hj)
    exact hno w (hdest.trans hw) ⟨g, hg, e ▸ List.mem_filterMap.mpr ⟨j, hj, hw⟩, hby⟩

omit hv in
/-- Of the late blocks, only the second guard goes to the join. -/
theorem not_late_of_join {g : GuardShape} (hg : p.guards = some g) (hstep : g.join ∈ f.successors b) (hb : b ≠ g.second) :
    ¬p.Late l₂ b := by
  intro hlate
  have hjoin := L.join_not_mem hg
  rcases L.late_iff.mp hlate with rfl | rfl | hmem | ⟨g', hg', rfl⟩
  · simp [(L.mem_successors_exit₁ hg).mp hstep] at hjoin
  · exact L.join_out₂ hg (L.mem_successors_preheader₂.mp hstep ▸ L.header₂_mem)
  · simp [(L.shape₂.leave L.loop₂ hmem hstep (L.join_out₂ hg)).2] at hjoin
  · cases hg.symm.trans hg'
    exact hb rfl

/-- A phi of the second guard has no source for a third way into the join. -/
theorem lacking_splice : (p.splice f).Lacking (Excused f p) := by
  rintro b hb i hi sources hs ⟨w, hw, g, hg, hmem, q, hq, hstep, hne, hne'⟩
  obtain ⟨d, j, old, rfl, hd, hj, hstay, hdest, hold, rfl⟩ := L.phi_splice hv hb hi hs
  obtain rfl : d = g.second := Func.destsAt_unique hv.once
    (mem_destsAt.mpr (Or.inl (List.mem_filterMap.mpr ⟨j, hj, hdest.symm.trans hw⟩))) (mem_destsAt.mpr (Or.inl hmem))
  have hok := hv.phis _ hd j (Func.mem_instrsOf_of_phi hj) old hold
  have hjoin := L.join_not_mem hg
  rw [L.phiHome_guard₂ hg]
  refine ⟨q, (L.live_splice hq).1 (L.not_late_of_join hg hstep hne),
    L.mem_successors_splice.mpr (Or.inl ⟨hstep, L.join_uncut hg⟩), ?_⟩
  rw [List.countP_map, List.countP_eq_zero]
  intro s hsm
  simp only [Function.comp_apply, beq_iff_eq]
  rcases ((L.guards hg).into s.1).mp (hok.edges s hsm) with e | e
  · rw [e, L.sourceName_exit₁ hg]
    exact Ne.symm hne'
  · rw [e, L.sourceName_kept (L.guard₁_kept hg).2]
    rintro rfl
    rcases (L.mem_successors_guard₁ hg).mp hstep with e | e <;> simp [e] at hjoin

theorem apply_valid : (p.apply f).Valid ↔ p.JoinFits f := by
  have hknown : ∀ b, (p.splice f).Live b → ∀ i ∈ (p.splice f).instrsOf b, ∀ sources, i.sources? = some sources →
      ∀ s ∈ sources, s.1 < (p.splice f).blocks.length := by
    intro b hb i hi sources hs t ht
    obtain ⟨d, j, old, rfl, hd, hj, _, _, hold, rfl⟩ := L.phi_splice hv hb hi hs
    obtain ⟨s, hsm, rfl⟩ := List.mem_map.mp ht
    obtain ⟨blk, hblk, _⟩ :=
      Func.mem_successors.mp ((hv.phis d hd j (Func.mem_instrsOf_of_phi hj) old hold).edges s hsm)
    rw [length_splice]
    exact L.sourceName_lt hv (List.getElem?_eq_some_iff.mp hblk).1
  refine (Func.sweep_valid_iff (L.liveValid_splice hv) (L.lacking_splice hv) hknown).trans ⟨fun h => ?_, fun h => ?_⟩
  · rintro g hg ⟨i, hi, hphi, v, hmem, hd⟩ q hq hstep
    by_contra hne
    rw [not_or] at hne
    exact h i hi hphi v hd ⟨g, hg, hmem, q, hq, hstep, hne.1, hne.2⟩
  · rintro i hi hphi v hd ⟨g, hg, hmem, q, hq, hstep, hne, hne'⟩
    exact (h g hg ⟨i, hi, hphi, v, hmem, hd⟩ q hq hstep).elim hne hne'

end Layout

/-! ## Carrying out a plan -/

/-- The result of a plan is given back, unless verification is on and finds a defect. -/
theorem Layout.value_carryOut {f : Func} {l₁ l₂ : Loop} {p : Plan} (L : Layout f l₁ l₂ p) (hv : f.Valid) (verify : Bool) :
    ((Snapshot.of f).carryOut p verify).value =
      if verify then (p.apply f).defect?.elim (.ok (p.apply f)) fun d => .error (.invalidResult d)
      else .ok (p.apply f) := by
  have hjoin : (p.guards.bind fun g => if f.hasBlock g.join then none else some g.join) = none := by
    cases hg : p.guards with
    | none => rfl
    | some g =>
      have hlive : f.Live g.join := (L.live_guard₂ hg).step ((L.mem_successors_guard₂ hg).mpr (Or.inr rfl))
      have hblock : f.hasBlock g.join = true := decide_eq_true (hv.live_lt hlive)
      simp [hblock]
  have hvalue : (p.splice (Snapshot.of f).func).sweepTraced.value.func = p.apply f := (p.splice f).value_sweepTraced
  unfold Snapshot.carryOut
  split
  · rename_i b hb
    exact absurd (hjoin.symm.trans hb) (by simp)
  · simp only [Traced.value_bind]
    cases verify with
    | false => exact congrArg Except.ok hvalue
    | true =>
      rw [hvalue]
      cases (p.apply f).defect? <;> rfl

theorem Snapshot.answer?_fuse {s : Snapshot} {l₁ l₂ : Loop} {memo : Memo} {p : Plan} (verify : Bool)
    (hplan : (s.plan l₁ l₂ .legal).run.answer? memo = some (.ok p)) :
    (s.fuse l₁ l₂ .legal verify).answer? memo = some (s.carryOut p verify).value := by
  obtain ⟨memo', hplan⟩ := Inquiry.answer?_eq_some_iff.mp hplan
  exact Inquiry.answer?_eq_some_iff.mpr ⟨memo', Inquiry.bind_eq_some_iff.mpr ⟨.ok p, memo', hplan, rfl⟩⟩

/-- **The plan of a legal pair of a valid function gives a valid function exactly if every phi of the second guard that
survives has a source for each way into the join.** Then verification changes nothing; otherwise it is what rejects the
result. -/
theorem apply_valid_iff {f : Func} {l₁ l₂ : Loop} {pair : Nat} {memo memo' : Memo} {p : Plan} (hvalid : f.isValid = true)
    (hpair : (l₁, l₂) ∈ (Snapshot.of f).candidates)
    (hlegal : ((Snapshot.of f).legality l₁ l₂ pair).answer? memo = some .legal)
    (hplan : ((Snapshot.of f).plan l₁ l₂ .legal).run.answer? memo' = some (.ok p)) :
    ((p.apply f).isValid = true ↔ p.JoinFits f) ∧
    (p.JoinFits f → ∀ verify, ((Snapshot.of f).fuse l₁ l₂ .legal verify).answer? memo' = some (.ok (p.apply f))) ∧
    (¬p.JoinFits f →
      (∃ d, ((Snapshot.of f).fuse l₁ l₂ .legal true).answer? memo' = some (.error (.invalidResult d))) ∧
      ((Snapshot.of f).fuse l₁ l₂ .legal false).answer? memo' = some (.ok (p.apply f))) := by
  have hv := Func.isValid_iff.mp hvalid
  have L := layout_of_plan hpair ⟨memo, hlegal⟩ ⟨memo', hplan⟩
  have hiff : (p.apply f).isValid = true ↔ p.JoinFits f := Func.isValid_iff.trans (L.apply_valid hv)
  refine ⟨hiff, fun hfits verify => ?_, fun hno => ⟨?_, ?_⟩⟩
  · have hnone : (p.apply f).defect? = none := Option.isNone_iff_eq_none.mp (hiff.mpr hfits)
    rw [Snapshot.answer?_fuse verify hplan, L.value_carryOut hv, hnone]
    cases verify <;> rfl
  · rw [← hiff, Func.isValid, Option.isNone_iff_eq_none] at hno
    obtain ⟨d, hd⟩ := Option.ne_none_iff_exists'.mp hno
    refine ⟨d, ?_⟩
    rw [Snapshot.answer?_fuse true hplan, L.value_carryOut hv, hd]
    rfl
  · rw [Snapshot.answer?_fuse false hplan, L.value_carryOut hv]
    rfl

/-- Two loops, one behind the other, that count up to the same bound. -/
def twoCounts : Func where
  name := "twoCounts"
  params := [0]
  blocks := [
    { term := .jump 1 },
    { instrs := [
        { op := .phi 1 [(0, .lit (.int 0)), (1, .var 2)] },
        { op := .binary .add 2 (.var 1) (.lit (.int 1)) },
        { op := .binary .lt 3 (.var 2) (.var 0) }],
      term := .branch (.var 3) 1 2 },
    { term := .jump 3 },
    { instrs := [
        { op := .phi 4 [(2, .lit (.int 0)), (3, .var 5)] },
        { op := .binary .add 5 (.var 4) (.lit (.int 1)) },
        { op := .binary .lt 6 (.var 5) (.var 0) }],
      term := .branch (.var 6) 3 4 },
    { term := .ret [.var 2, .var 5] }]

def twoCountsPair : Loop × Loop := (Snapshot.of twoCounts).candidates.headD default

def twoCountsPlan : Plan where
  first := { header := 1, latch := 1, preheader := 0, exit := 2, induction := 1, body := none }
  second := { header := 3, latch := 3, preheader := 2, exit := 4, induction := 4, body := none }
  guards := none
  unify := true

theorem twoCounts_apply_valid : (twoCountsPlan.apply twoCounts).isValid = true := by
  have hpair : (twoCountsPair.1, twoCountsPair.2) ∈ (Snapshot.of twoCounts).candidates := by decide +kernel
  have hlegal : ((Snapshot.of twoCounts).legality twoCountsPair.1 twoCountsPair.2 1).answer? {} = some .legal := by
    decide +kernel
  have hplan : ((Snapshot.of twoCounts).plan twoCountsPair.1 twoCountsPair.2 .legal).run.answer? {} =
      some (.ok twoCountsPlan) := by decide +kernel
  exact (apply_valid_iff (by decide +kernel) hpair hlegal hplan).1.mpr nofun

/-- A guarded pair in an outer loop, whose header is the join, with a phi of the second guard that is read behind the
second loop. -/
def sharedJoin : Func where
  name := "sharedJoin"
  params := [0]
  blocks := [
    { term := .jump 1 },
    { instrs := [
        { op := .phi 1 [(0, .lit (.int 0)), (6, .var 2), (10, .var 2)] },
        { op := .phi 3 [(0, .lit (.int 0)), (6, .var 3), (10, .var 20)] },
        { op := .binary .add 2 (.var 1) (.lit (.int 1)) },
        { op := .binary .lt 4 (.var 1) (.lit (.int 2)) }],
      term := .branch (.var 4) 2 9 },
    { instrs := [{ op := .binary .lt 5 (.lit (.int 0)) (.var 0) }], term := .branch (.var 5) 3 6 },
    { term := .jump 4 },
    { instrs := [
        { op := .phi 6 [(3, .lit (.int 0)), (4, .var 7)] },
        { op := .binary .add 7 (.var 6) (.lit (.int 1)) },
        { op := .binary .lt 8 (.var 7) (.var 0) }],
      term := .branch (.var 8) 4 5 },
    { term := .jump 6 },
    { instrs := [
        { op := .phi 9 [(2, .lit (.int 100)), (5, .var 7)] },
        { op := .binary .lt 10 (.lit (.int 0)) (.var 0) }],
      term := .branch (.var 10) 7 1 },
    { term := .jump 8 },
    { instrs := [
        { op := .phi 11 [(7, .lit (.int 0)), (8, .var 12)] },
        { op := .binary .add 12 (.var 11) (.lit (.int 1)) },
        { op := .binary .lt 13 (.var 12) (.var 0) }],
      term := .branch (.var 13) 8 10 },
    { term := .ret [.var 3] },
    { instrs := [{ op := .binary .add 20 (.var 9) (.lit (.int 1)) }], term := .jump 1 }]

def sharedJoinPair : Loop × Loop := (Snapshot.of sharedJoin).candidates.headD default

def sharedJoinPlan : Plan where
  first := { header := 4, latch := 4, preheader := 3, exit := 5, induction := 6, body := none }
  second := { header := 8, latch := 8, preheader := 7, exit := 10, induction := 11, body := none }
  guards := some { first := 2, second := 6, join := 1 }
  unify := true

/-- The function before the outer loop is a third way into the join: the plan of a legal pair gives an invalid function. -/
theorem sharedJoin_apply_invalid : sharedJoin.isValid = true ∧
    (sharedJoinPair.1, sharedJoinPair.2) ∈ (Snapshot.of sharedJoin).candidates ∧
    ((Snapshot.of sharedJoin).legality sharedJoinPair.1 sharedJoinPair.2 1).answer? {} = some .legal ∧
    ((Snapshot.of sharedJoin).plan sharedJoinPair.1 sharedJoinPair.2 .legal).run.answer? {} = some (.ok sharedJoinPlan) ∧
    (sharedJoinPlan.apply sharedJoin).isValid = false :=
  ⟨by decide +kernel, by decide +kernel, by decide +kernel, by decide +kernel, by decide +kernel⟩

end SsaFusion
