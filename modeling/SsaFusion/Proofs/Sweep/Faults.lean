import SsaFusion.Proofs.Machine.Stops
import SsaFusion.Proofs.Sweep.Runs

/-!
# Faults of swept functions

A sweep keeps a fault if it keeps the instruction at which the run stops (`deadCode_keeps_fault`). To see it, the function and
what a sweep makes of it are followed from moment to moment (`Aligned`): a dropped instruction is a moment of the first only,
and where one side fails at an instruction that is kept, the other fails too (`Mirrors.fault`). A sweep may well drop the
culprit: a load whose result is not read has no effect, but may be out of bounds.
-/

namespace SsaFusion

namespace Machine

variable {m m' : Machine} {limit : Nat} {e : Fault}

/-! ## Machines that agree fail alike -/

namespace Agrees

variable {good : ValueId → Prop} (h : Agrees good m m')

include h

/-- A terminator whose operands matter fails on both sides. -/
theorem transfer_error {φ : BlockId → BlockId} {b c : BlockId} {t : Terminator} (ht : ∀ v ∈ valuesOf t.operands, good v)
    (hne : ∀ b, e ≠ .unreachable b) (hr : m.transfer b t = .error e) : m'.transfer c (t.mapTargets φ) = .error e := by
  have ht := readable_of_valuesOf ht
  cases t with
  | jump target => cases hr
  | branch cond onTrue onFalse =>
    have hc := h.readBool (ht cond (by simp [Terminator.operands]))
    obtain hr | ⟨_, _, hr⟩ := bind_eq_error hr
    · simp only [Machine.transfer, Terminator.mapTargets, hc, hr]
      rfl
    · cases hr
  | ret vs =>
    have hvs : m'.readAll vs = m.readAll vs := h.readAll ht
    obtain hr | ⟨_, _, hr⟩ := bind_eq_error hr
    · simp only [Machine.transfer, Terminator.mapTargets, hvs, hr]
      rfl
    · cases hr
  | unreachable =>
    cases hr
    exact absurd rfl (hne b)

/-- Phis that have an operand for an edge fail at the first that cannot read it, and the others make no difference. -/
theorem gather_error {keep : Instr → Bool} {ψ : Instr → Instr} {a a' b c : BlockId} {is : List Instr}
    (hphi : ∀ i ∈ is, i.isPhi = true) (hkept : ∀ i ∈ is, keep i = true → ∀ v ∈ i.reads, good v)
    (hsource : ∀ i ∈ is, ∀ d sources, i.op = .phi d sources → ∃ sources', (ψ i).op = .phi d sources' ∧
      (sources'.find? (·.1 == a')).map Prod.snd = (sources.find? (·.1 == a)).map Prod.snd)
    (hfound : ∀ i ∈ is, ∀ sources, i.sources? = some sources → ∃ s, sources.find? (·.1 == a) = some s)
    (hne : e ≠ .budgetExhausted limit) (hg : m.gather limit a b is = .error e) :
    ∃ i, is.find? (!m.receives a ·) = some i ∧ (keep i = true → m'.gather limit a' c ((is.filter keep).map ψ) = .error e ∧
      ((is.filter keep).map ψ).find? (!m'.receives a' ·) = some (ψ i)) := by
  induction is generalizing m m' with
  | nil => cases hg
  | cons i rest ih =>
    rw [List.forall_mem_cons] at hphi hkept hsource hfound
    obtain ⟨d, sources, hop⟩ := Instr.eq_phi_of_isPhi hphi.1
    have hs : i.sources? = some sources := by rw [Instr.sources?, hop]; rfl
    obtain ⟨s, hfind⟩ := hfound.1 sources hs
    obtain ⟨sources', hop', hfind'⟩ := hsource.1 d sources hop
    have hs' : (ψ i).sources? = some sources' := by rw [Instr.sources?, hop']; rfl
    rw [hfind, Option.map_some] at hfind'
    obtain ⟨s', hfind', hsame⟩ := Option.map_eq_some_iff.mp hfind'
    have hread : keep i = true → Readable good s.2 := fun hk =>
      readable_of_valuesOf (hkept.1 hk) _ (by
        rw [Instr.operands, hop]
        exact List.mem_map_of_mem (List.mem_of_find?_eq_some hfind))
    rw [Machine.gather, hop] at hg
    obtain htick | ⟨m₂, htick, hg⟩ := bind_eq_error hg
    · exact absurd (tick_eq_error htick) hne
    have henv : m₂.env = m.env := by rw [(tick_eq_ok.mp htick).2]
    simp only [hfind] at hg
    obtain ⟨m₂', htick', h₂⟩ := h.tick htick
    have henv' : m₂'.env = m'.env := by rw [(tick_eq_ok.mp htick').2]
    obtain hfail | ⟨x, hx, hg⟩ := bind_eq_error hg
    · -- this phi is the first that cannot read
      have hno : m.receives a i = false := by rw [← receives_of_env henv, receives_eq hs hfind, hfail]; rfl
      refine ⟨i, List.find?_cons_of_pos (by simp [hno]), fun hk => ?_⟩
      have hfail' : m₂'.read s'.2 = .error e := by rw [hsame, h₂.read (hread hk), hfail]
      have hno' : m'.receives a' (ψ i) = false := by rw [← receives_of_env henv', receives_eq hs' hfind', hfail']; rfl
      rw [List.filter_cons_of_pos hk, List.map_cons]
      refine ⟨?_, List.find?_cons_of_pos (by simp [hno'])⟩
      rw [Machine.gather, hop', htick']
      simp only [ok_bind, hfind', hfail']
      rfl
    · have hyes : m.receives a i = true := by rw [← receives_of_env henv, receives_eq hs hfind, hx]; rfl
      obtain hg | ⟨r, _, hg⟩ := bind_eq_error hg
      · rw [List.find?_cons_of_neg (by simp [hyes])]
        cases hk : keep i with
        | true =>
          obtain ⟨j, hj, hfail⟩ := ih h₂ hphi.2 hkept.2 hsource.2 hfound.2 hg
          simp only [receives_of_env henv] at hj
          refine ⟨j, hj, fun hkj => ?_⟩
          obtain ⟨hg', hj'⟩ := hfail hkj
          simp only [receives_of_env henv'] at hj'
          have hx' : m₂'.read s'.2 = .ok x := by rw [hsame, h₂.read (hread hk), hx]
          have hyes' : m'.receives a' (ψ i) = true := by rw [← receives_of_env henv', receives_eq hs' hfind', hx']; rfl
          rw [List.filter_cons_of_pos hk, List.map_cons, List.find?_cons_of_neg (by simp [hyes'])]
          refine ⟨?_, hj'⟩
          rw [Machine.gather, hop', htick']
          simp only [ok_bind, hfind', hx', hg']
          rfl
        | false =>
          obtain ⟨j, hj, hfail⟩ := ih (h.tick_left htick) hphi.2 hkept.2 hsource.2 hfound.2 hg
          simp only [receives_of_env henv] at hj
          rw [List.filter_cons_of_neg (by simp [hk])]
          exact ⟨j, hj, hfail⟩
      · cases hg

end Agrees

end Machine

/-! ## Two functions moment by moment -/

/-- A moment of the mirroring function at which it has got as far as the mirrored one. -/
structure Aligned (f g : Func) (φ : BlockId → BlockId) (keep : Instr → Bool) (good : ValueId → Prop) (M M' : Moment) :
    Prop where
  machine : M.machine.Agrees good M'.machine
  live : f.Live M.block
  block : M'.block = φ M.block
  rest : (g.instrsOf M'.block).drop M'.done = ((f.instrsOf M.block).drop M.done).filter keep

namespace Aligned

variable {f g : Func} {φ : BlockId → BlockId} {keep : Instr → Bool} {good : ValueId → Prop} {M M' : Moment} {i : Instr}

/-- Before an instruction that is kept, the other side is before it too; behind it, what is left is aligned in both cases. -/
theorem instr (h : Aligned f g φ keep good M M') (hi : f.instrAt? M.block M.done = some i) :
    (g.instrsOf M'.block).drop M'.done = if keep i then i :: ((f.instrsOf M.block).drop (M.done + 1)).filter keep
      else ((f.instrsOf M.block).drop (M.done + 1)).filter keep := by
  obtain ⟨hlt, rfl⟩ := List.getElem?_eq_some_iff.mp hi
  rw [h.rest, List.drop_eq_getElem_cons hlt, List.filter_cons]

theorem instr_none (h : Aligned f g φ keep good M M') (hi : f.instrAt? M.block M.done = none) :
    g.instrAt? M'.block M'.done = none := by
  have hrest := h.rest
  rw [List.drop_of_length_le (List.getElem?_eq_none_iff.mp hi), List.filter_nil, List.drop_eq_nil_iff] at hrest
  exact List.getElem?_eq_none hrest

end Aligned

namespace Mirrors

variable {f g : Func} {φ : BlockId → BlockId} {ψ : Instr → Instr} {keep : Instr → Bool} {good : ValueId → Prop}
  {args : List Word} {limit k : Nat} {M M' M₁ : Moment} {b : BlockId} {i : Instr}

variable (hfg : Mirrors f g φ ψ keep good) (hv : f.LiveValid fun _ => False)

include hfg hv

/-- The parts of a mirrored block. -/
theorem parts (hb : f.Live b) : ∃ blk blk', f.block? b = some blk ∧ g.block? (φ b) = some blk' ∧
    g.phisAt (φ b) = ((f.phisAt b).filter keep).map ψ ∧ g.bodyAt (φ b) = (f.bodyAt b).filter keep ∧
      blk'.term = blk.term.mapTargets φ := by
  obtain ⟨blk, hblk⟩ : ∃ blk, f.block? b = some blk := ⟨_, List.getElem?_eq_getElem (hv.live_lt hb)⟩
  obtain ⟨blk', hblk', hphis, hbody, hterm⟩ := hfg.block b hb blk hblk
  exact ⟨blk, blk', hblk, hblk', by simp [Func.phisAt, hblk, hblk', hphis], by simp [Func.bodyAt, hblk, hblk', hbody], hterm⟩

/-- Moments at the start of mirrored blocks are aligned if their machines agree. -/
theorem aligned_start (hb : f.Live M.block) (h : M.machine.Agrees good M'.machine) (hblock : M'.block = φ M.block)
    (hdone : M.done = (f.phisAt M.block).length) (hdone' : M'.done = (g.phisAt M'.block).length) :
    Aligned f g φ keep good M M' := by
  obtain ⟨-, -, -, -, -, hbody, -⟩ := hfg.parts hv hb
  exact ⟨h, hb, hblock, by rw [hdone', g.drop_phisAt, hdone, f.drop_phisAt, hblock, hbody]⟩

/-- **One step.** An instruction that is dropped is a step of one side only; otherwise both sides take a step. -/
theorem step (h : Aligned f g φ keep good M M') (hnext : M.next f limit = .ok (.inl M₁)) :
    Aligned f g φ keep good M₁ M' ∨ ∃ M₁', M'.next g limit = .ok (.inl M₁') ∧ Aligned f g φ keep good M₁ M₁' := by
  cases hi : f.instrAt? M.block M.done with
  | some i =>
    have hmem : i ∈ f.instrsOf M.block := List.mem_of_getElem? hi
    have hrest := h.instr hi
    rw [Moment.next_of_instr hi] at hnext
    obtain ⟨m₁, htick, hnext⟩ := bind_eq_ok hnext
    obtain ⟨m₂, hexec, hnext⟩ := bind_eq_ok hnext
    cases hnext
    cases hk : keep i with
    | true =>
      rw [if_pos hk] at hrest
      obtain ⟨hi', hrest'⟩ := Func.getElem?_of_drop hrest
      obtain ⟨m₁', htick', h₁⟩ := h.machine.tick htick
      obtain ⟨m₂', hexec', h₂⟩ := h₁.execute (Machine.readable_of_valuesOf (hfg.kept _ h.live i hmem hk)) hexec
      refine Or.inr ⟨{ M' with machine := m₂', done := M'.done + 1, fresh := i.dest?.toList }, ?_, h₂, h.live, h.block, hrest'⟩
      rw [Moment.next_of_instr hi', htick', ok_bind, hexec', ok_bind]
    | false =>
      rw [if_neg (by simp [hk])] at hrest
      obtain ⟨hpure, hdest⟩ := hfg.dropped _ h.live i hmem hk
      exact Or.inl ⟨(h.machine.tick_left htick).execute_left hpure hdest hexec, h.live, h.block, hrest⟩
  | none =>
    obtain ⟨blk, blk', hblk, hblk', -, -, hterm⟩ := hfg.parts hv h.live
    obtain ⟨m, m₁, target, htick, htrans, henter, rfl⟩ := Moment.goto_of_next hblk hi hnext
    have hsucc := Machine.transfer_mem (f.term?_eq hblk) htrans
    obtain ⟨m', htick', h'⟩ := h.machine.tick htick
    have htrans' := h'.transfer (φ := φ) (c := φ M.block) (hfg.term _ h.live _ (f.term?_eq hblk)) htrans
    obtain ⟨m₁', henter', h₁⟩ := hfg.enter h' h.live hsucc henter
    rw [← h.block] at hblk' htrans' henter'
    rw [← hterm] at htrans'
    refine Or.inr ⟨M'.arrive g (φ target) m₁', ?_, hfg.aligned_start hv (h.live.step hsucc) h₁ rfl rfl rfl⟩
    rw [Moment.next_of_goto hblk' (h.instr_none hi) htick' htrans', henter', ok_bind]

/-- Every moment has an aligned one. -/
theorem exists_aligned (hM : f.moment? args limit k = some M) :
    ∃ k' M', g.moment? args limit k' = some M' ∧ Aligned f g φ keep good M M' := by
  induction k generalizing M with
  | zero =>
    have ha := Func.length_args_of_moment? hM
    rw [Func.moment?, if_pos ha] at hM
    cases hM
    have hmachine : (g.start args).machine = (f.start args).machine := by simp only [Func.start, hfg.params]
    refine ⟨0, g.start args, by rw [Func.moment?, hfg.params, if_pos ha], ?_⟩
    exact hfg.aligned_start hv Func.live_entry (hmachine ▸ .refl _) hfg.entry rfl rfl
  | succ k ih =>
    obtain ⟨M₀, hM₀, hnext⟩ := Func.moment?_succ.mp hM
    obtain ⟨k', M', hM', h⟩ := ih hM₀
    rcases hfg.step hv h hnext with h | ⟨M₁', hnext', h⟩
    · exact ⟨k', M', hM', h⟩
    · exact ⟨k' + 1, M₁', Func.moment?_succ.mpr ⟨M', hM', hnext'⟩, h⟩

/-- Entering a block fails on both sides at the same phi if that phi is kept. -/
theorem enter_error {m m' : Machine} {e : Fault} {a : BlockId} (h : m.Agrees good m') (ha : f.Live a)
    (hab : b ∈ f.successors a) (hne : e ≠ .budgetExhausted limit) (he : m.enter f limit a b = .error e) :
    ∃ i, (f.phisAt b).find? (!m.receives a ·) = some i ∧ (keep i = true → m'.enter g limit (φ a) (φ b) = .error e ∧
      (g.phisAt (φ b)).find? (!m'.receives (φ a) ·) = some (ψ i)) := by
  have hb := ha.step hab
  obtain ⟨blk, blk', hblk, hblk', hphis', -, -⟩ := hfg.parts hv hb
  have hphis : f.phisAt b = blk.phis := by simp [Func.phisAt, hblk]
  rw [Func.phisAt, hblk', Option.map_some, Option.getD_some, hphis] at hphis'
  have hinstr : ∀ i ∈ blk.phis, i ∈ f.instrsOf b := fun i hi => Func.mem_instrsOf_of_phi (hphis ▸ hi)
  have hfound : ∀ i ∈ blk.phis, ∀ sources, i.sources? = some sources → ∃ s, sources.find? (·.1 == a) = some s := by
    intro i hi sources hs
    have hone := (hv.phis b hb i (hinstr i hi) sources hs fun d _ => id).once a ha hab
    obtain ⟨s, hsm, hsa⟩ := List.countP_pos_iff.mp (by omega : 0 < sources.countP (·.1 == a))
    exact Option.isSome_iff_exists.mp (List.find?_isSome.mpr ⟨s, hsm, hsa⟩)
  have hsource := hfg.source a b ha hab
  rw [hphis] at hsource
  simp only [Machine.enter, hblk] at he
  obtain hg | ⟨r, -, he⟩ := bind_eq_error he
  · obtain ⟨i, hi, hfail⟩ := h.gather_error (fun i => Block.isPhi_of_mem_phis) (fun i hi => hfg.kept b hb i (hinstr i hi))
      hsource hfound hne hg (c := φ b)
    refine ⟨i, hphis ▸ hi, fun hk => ?_⟩
    obtain ⟨hg', hi'⟩ := hfail hk
    refine ⟨?_, by rw [Func.phisAt, hblk', Option.map_some, Option.getD_some, hphis', hi']⟩
    simp only [Machine.enter, hblk', hphis', hg']
    rfl
  · cases he

/-- **The last step.** Where one side fails at an instruction that is kept, or at a terminator, the other does. -/
theorem fault {P : Instr → Prop} {e : Fault} (hkeep : ∀ i, P i → keep i = true) (hψ : ∀ i, P i → P (ψ i))
    (hbudget : e ≠ .budgetExhausted limit) (hunreachable : ∀ b, e ≠ .unreachable b) (h : Aligned f g φ keep good M M')
    (hnext : M.next f limit = .error e) (hP : ∀ i, M.culprit? f = some i → P i) :
    M'.next g limit = .error e ∧ ∀ i, M'.culprit? g = some i → P i := by
  cases hi : f.instrAt? M.block M.done with
  | some i =>
    have hmem : i ∈ f.instrsOf M.block := List.mem_of_getElem? hi
    have hPi : P i := hP i (by simp only [Moment.culprit?, hi])
    have hrest := h.instr hi
    rw [if_pos (hkeep i hPi)] at hrest
    obtain ⟨hi', -⟩ := Func.getElem?_of_drop hrest
    refine ⟨?_, fun j hj => ?_⟩
    · rw [Moment.next_of_instr hi] at hnext
      obtain htick | ⟨m₁, htick, hnext⟩ := bind_eq_error hnext
      · exact absurd (Machine.tick_eq_error htick) hbudget
      obtain hexec | ⟨_, _, hnext⟩ := bind_eq_error hnext
      · obtain ⟨m₁', htick', h₁⟩ := h.machine.tick htick
        have hexec' := (h₁.execute_alike (Machine.readable_of_valuesOf (hfg.kept _ h.live i hmem (hkeep i hPi)))).error hexec
        rw [Moment.next_of_instr hi', htick', ok_bind, hexec']
        rfl
      · cases hnext
    · simp only [Moment.culprit?, Func.instrAt?, hi', Option.some.injEq] at hj
      exact hj ▸ hPi
  | none =>
    have hi' := h.instr_none hi
    obtain ⟨blk, blk', hblk, hblk', -, -, hterm⟩ := hfg.parts hv h.live
    have hreads := hfg.term _ h.live _ (f.term?_eq hblk)
    rw [← h.block] at hblk'
    rcases Moment.error_of_next hblk hi hnext with hb | ⟨m, htick, htrans | ⟨target, htrans, henter⟩⟩
    · exact absurd hb hbudget
    · obtain ⟨m', htick', h'⟩ := h.machine.tick htick
      have htrans' := h'.transfer_error (φ := φ) (c := M'.block) hreads hunreachable htrans
      rw [← hterm] at htrans'
      refine ⟨Moment.next_of_transfer_error hblk' hi' htick' htrans', fun i hc => ?_⟩
      rw [Moment.culprit?_of_transfer_error hblk' hi' htick' htrans'] at hc
      cases hc
    · obtain ⟨m', htick', h'⟩ := h.machine.tick htick
      have htrans' := h'.transfer (φ := φ) (c := M'.block) hreads htrans
      rw [← hterm] at htrans'
      obtain ⟨i, hfirst, hfail⟩ := hfg.enter_error hv h' h.live (Machine.transfer_mem (f.term?_eq hblk) htrans) hbudget henter
      have hPi : P i := hP i (by rw [Moment.culprit?_of_goto hblk hi htick htrans, hfirst])
      obtain ⟨henter', hfirst'⟩ := hfail (hkeep i hPi)
      rw [← h.block] at henter' hfirst'
      refine ⟨by rw [Moment.next_of_goto hblk' hi' htick' htrans', henter']; rfl, fun j hj => ?_⟩
      rw [Moment.culprit?_of_goto hblk' hi' htick' htrans', hfirst'] at hj
      exact Option.some.inj hj ▸ hψ i hPi

/-- A fault at an instruction that is kept, or at a terminator, is a fault of the mirroring function. -/
theorem stopsAt {P : Instr → Prop} {e : Fault} (hkeep : ∀ i, P i → keep i = true) (hψ : ∀ i, P i → P (ψ i))
    (hbudget : e ≠ .budgetExhausted limit) (hunreachable : ∀ b, e ≠ .unreachable b) (h : f.StopsAt args limit e P) :
    g.StopsAt args limit e P := by
  obtain ⟨k, M, hM, hnext, hP⟩ := h
  obtain ⟨k', M', hM', haligned⟩ := hfg.exists_aligned hv hM
  exact ⟨k', M', hM', hfg.fault hv hkeep hψ hbudget hunreachable haligned hnext hP⟩

end Mirrors

/-! ## The sweep -/

namespace Func

variable {f : Func} {args : List Word} {limit : Nat} {e : Fault}

/-- A round of pruning reads nothing new. -/
theorem reads_prune_subset (f : Func) : f.prune.reads ⊆ f.reads := by
  intro v hv
  obtain ⟨_, hmem, hv⟩ := List.mem_flatMap.mp hv
  obtain ⟨b, hb, rfl⟩ := List.mem_map.mp hmem
  refine List.mem_flatMap.mpr ⟨b, hb, (List.mem_append.mp hv).elim (fun hv => ?_) (List.mem_append_right _)⟩
  obtain ⟨i, hi, hv⟩ := List.mem_flatMap.mp hv
  exact List.mem_append_left _ (List.mem_flatMap.mpr ⟨i, (List.mem_filter.mp hi).1, hv⟩)

theorem reads_pruneAll_subset (f : Func) : f.pruneAll.reads ⊆ f.reads :=
  pruneAll_induction (P := fun g => g.reads ⊆ f.reads) (fun g => List.Subset.trans g.reads_prune_subset) f fun _ => id

/-- An instruction has an effect, or a result among the values of a list. -/
def Matters (read : List ValueId) (i : Instr) : Prop := i.hasEffect = true ∨ ∃ d, i.dest? = some d ∧ d ∈ read

theorem Matters.isLive {read : List ValueId} {i : Instr} (h : Matters read i) (hread : read ⊆ f.reads) :
    isLive f.reads i = true := by
  rcases h with heffect | ⟨d, hd, hmem⟩
  · rw [Func.isLive, heffect, Bool.true_or]
  · exact isLive_of_read hd (hread hmem)

/-- Pruning keeps a fault at an instruction that matters in what is left. -/
theorem LiveValid.stopsAt_pruneAll (hf : f.LiveValid fun _ => False) (hbudget : e ≠ .budgetExhausted limit)
    (hunreachable : ∀ b, e ≠ .unreachable b) (h : f.StopsAt args limit e (Matters f.pruneAll.reads)) :
    f.pruneAll.StopsAt args limit e (Matters f.pruneAll.reads) := by
  fun_induction pruneAll f with
  | case1 f _ ih =>
    refine ih hf.prune (hf.mirrors_prune.stopsAt hf (fun i hi => hi.isLive ?_) (fun _ => id) hbudget hunreachable h)
    exact List.Subset.trans f.prune.reads_pruneAll_subset f.reads_prune_subset
  | case2 => exact h

/-- A sweep keeps a fault at an instruction that matters in what is left. -/
theorem Valid.stopsAt_sweep (hf : f.Valid) (hbudget : e ≠ .budgetExhausted limit) (hunreachable : ∀ b, e ≠ .unreachable b)
    (h : f.StopsAt args limit e (Matters f.sweep.reads)) : f.sweep.StopsAt args limit e (Matters f.sweep.reads) := by
  refine hf.liveValid.compact.stopsAt_pruneAll hbudget hunreachable ?_
  refine hf.mirrors_compact.stopsAt hf.liveValid (fun _ _ => rfl) (fun i hi => ?_) hbudget hunreachable h
  simpa [Matters] using hi

end Func

/-- **Dead code elimination keeps faults at instructions that it keeps.** A valid function that ends in a fault, other than
for want of budget or at a place that should not be reached, ends in the same fault after the pass, provided that it fails
at a terminator or at an instruction with an effect or with a result that is still read after the pass. -/
theorem Pass.deadCode_keeps_fault (f : Func) (hf : f.isValid = true) (args : List Word) (limit : Nat) (e : Fault)
    (he : f.run args limit = .error e) (hbudget : ∀ n, e ≠ .budgetExhausted n) (hunreachable : ∀ b, e ≠ .unreachable b) :
    ∃ c, (Pass.deadCode.run f).result? = some c ∧
      ((∀ k M i, f.moment? args limit k = some M → M.next f limit = .error e → M.culprit? f = some i →
          i.hasEffect = true ∨ ∃ d, i.dest? = some d ∧ d ∈ c.func.reads) →
        c.func.run args limit = .error e) := by
  have hvalid := Func.isValid_iff.mp hf
  refine ⟨f.sweepTraced.value, rfl, ?_⟩
  rw [f.value_sweepTraced]
  intro hculprit
  by_cases ha : args.length = f.params.length
  · have hstart : f.moment? args limit 0 = some (f.start args) := if_pos ha
    obtain ⟨k, M, hM, hnext⟩ := Func.endsIn_run hstart
    rw [he] at hnext
    exact (hvalid.stopsAt_sweep (hbudget limit) hunreachable ⟨k, M, hM, hnext, fun i => hculprit k M i hM hnext⟩).run_eq
  · have hparams : f.sweep.params = f.params :=
      Func.pruneAll_induction (P := fun g => g.params = f.params) (fun _ hg => hg) f.compact Func.params_compact
    rw [Func.run, if_neg ha] at he
    rw [Func.run, hparams, if_neg ha, he]

/-- Reads a cell of an array at an offset that it is given, behind an instruction that is dead. -/
def cellRead : Func where
  name := "cellRead"
  params := [0]
  blocks := [
    { instrs := [{ op := .alloc 1 2 }, { op := .binary .mul 2 (.var 0) (.var 0) }, { op := .shift 3 (.var 1) (.var 0) },
        { op := .load 4 (.var 3) }],
      term := .ret [.var 4] }]

theorem cellRead_keeps_fault :
    cellRead.isValid = true ∧ cellRead.run [5] 30 = .error (.outOfBounds 5 2) ∧
      ∃ c, (Pass.deadCode.run cellRead).result? = some c ∧ c.func.run [5] 30 = .error (.outOfBounds 5 2) := by
  have hvalid : cellRead.isValid = true := by decide
  have hrun : cellRead.run [5] 30 = .error (.outOfBounds 5 2) := by rfl
  obtain ⟨c, hc, hkeeps⟩ := Pass.deadCode_keeps_fault cellRead hvalid [5] 30 _ hrun nofun nofun
  refine ⟨hvalid, hrun, c, hc, hkeeps fun k M i hM hnext hi => ?_⟩
  obtain rfl := Option.some.inj hc
  -- the run stops at its fourth moment, before the load
  have hlast : cellRead.moment? [5] 30 3 = some _ := rfl
  obtain ⟨-, rfl⟩ := Func.last_unique hlast (Func.last_of_error (e := .outOfBounds 5 2) rfl) hM (Func.last_of_error hnext)
  obtain rfl : Instr.mk (.load 4 (.var 3)) none = i := Option.some.inj hi
  exact Or.inr ⟨4, rfl, by decide +kernel⟩

/-- Reads a cell outside of an array and does nothing with it. -/
def deadLoad : Func where
  name := "deadLoad"
  blocks := [
    { instrs := [{ op := .alloc 0 1 }, { op := .shift 1 (.var 0) (.lit (.int 5)) }, { op := .load 2 (.var 1) }],
      term := .ret [] }]

/-- Without its dead load, a function that ended in a fault returns. -/
theorem deadLoad_loses_fault :
    deadLoad.isValid = true ∧ deadLoad.run [] 30 = .error (.outOfBounds 5 1) ∧
      (Pass.deadCode.run deadLoad).result?.map (fun c => c.func.run [] 30) = some (.ok ⟨[], 2, 1⟩) := by
  refine ⟨by decide, by rfl, ?_⟩
  decide +kernel

end SsaFusion
