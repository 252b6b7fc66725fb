import SsaFusion.Proofs.Fusion.Recursions
import SsaFusion.Proofs.Machine.Moments

/-!
# Values that the second loop may read

Fusion lets the second loop read a value of the first in every round, where it used to read what the last round left. That
is the same if the first loop computes the value alike in all rounds of one activation, that is, from when control comes
to the header from outside until it leaves the loop (`Activation`).

A value from outside is not computed anew while the loop runs (`Activation.get?_of_outside`). A value of the loop that is
available in it was computed in this very activation (`Activation.computed`), since its block lies behind the header; so
if its instruction is pure, what it holds is decided by its operands. Along the definitions that the gate follows, every
moment of an activation therefore sees the same datum (`Activation.get?_of_repeats?`).
-/

namespace SsaFusion

/-- The moments of one activation of a loop. It begins at a step that brings control to the header from outside, or with
the run, and goes on as long as control stays in the loop. -/
inductive Func.Activation (f : Func) (args : List Word) (limit : Nat) (l : Loop) (first : Nat) : Moment → Prop
  | enter {M : Moment} : f.moment? args limit first = some M → M.block = l.header →
      (∀ k M₀, first = k + 1 → f.moment? args limit k = some M₀ → M₀.block ∉ l.blocks) →
      Activation f args limit l first M
  | stay {M M' : Moment} : Activation f args limit l first M → M.next f limit = .ok (.inl M') → M'.block ∈ l.blocks →
      Activation f args limit l first M'

namespace Func.Activation

variable {f : Func} {args : List Word} {limit first : Nat} {l : Loop} {M M' : Moment} {v : ValueId}

theorem exists_moment (h : f.Activation args limit l first M) : ∃ k, f.moment? args limit k = some M := by
  induction h with
  | enter hM _ _ => exact ⟨first, hM⟩
  | stay _ hnext _ ih =>
    obtain ⟨k, hk⟩ := ih
    exact ⟨k + 1, moment?_succ.mpr ⟨_, hk, hnext⟩⟩

/-- The moments from an arrival at the header on, as long as all are in the loop. -/
theorem of_moments (hout : ∀ k M₀, first = k + 1 → f.moment? args limit k = some M₀ → M₀.block ∉ l.blocks)
    (hhead : ∀ M₀, f.moment? args limit first = some M₀ → M₀.block = l.header) {n : Nat}
    (hin : ∀ k ≤ n, ∀ M₀, f.moment? args limit (first + k) = some M₀ → M₀.block ∈ l.blocks)
    (hM : f.moment? args limit (first + n) = some M) : f.Activation args limit l first M := by
  induction n generalizing M with
  | zero => exact .enter hM (hhead M hM) hout
  | succ n ih =>
    obtain ⟨M₀, hM₀, hnext⟩ := moment?_succ.mp hM
    exact .stay (ih (fun k hk => hin k (by omega)) hM₀) hnext (hin (n + 1) (Nat.le_refl _) M hM)

variable (hn : f.defined.Nodup)

include hn

/-- What is defined outside the loop holds the same datum all through an activation. -/
theorem get?_of_outside (hout : ∀ b n, f.DefinedAt v b n → b ∉ l.blocks) (h : f.Activation args limit l first M)
    (h' : f.Activation args limit l first M') : M'.machine.env.get? v = M.machine.env.get? v := by
  have hfirst : ∀ {M}, f.Activation args limit l first M →
      ∃ M₀, f.moment? args limit first = some M₀ ∧ M.machine.env.get? v = M₀.machine.env.get? v := by
    intro M h
    induction h with
    | enter hM _ _ => exact ⟨_, hM, rfl⟩
    | stay _ hnext hb ih =>
      obtain ⟨M₀, hM₀, heq⟩ := ih
      have hstep := Moment.step_of_next hn hnext
      refine ⟨M₀, hM₀, (hstep.env fun hfresh => ?_).trans heq⟩
      obtain ⟨n, -, hdef⟩ := hstep.definedAt_of_fresh hfresh
      exact hout _ n hdef hb
  obtain ⟨M₀, hM₀, heq⟩ := hfirst h
  obtain ⟨M₀', hM₀', heq'⟩ := hfirst h'
  cases hM₀.symm.trans hM₀'
  exact heq'.trans heq.symm

variable (hl : IsLoop f l)

include hl

/-- At the header, nothing of the loop but phis of the header is available. -/
theorem not_available_at_header {b : BlockId} {n : Nat} {i : Instr} (hi : f.instrAt? b n = some i)
    (hd : i.dest? = some v) (hphi : i.isPhi = false) (hb : b ∈ l.blocks) :
    ¬f.AvailableBefore l.header (f.phisAt l.header).length v := by
  have hdef : f.DefinedAt v b n := ⟨i, hi, hd⟩
  rw [availableBefore_iff]
  rintro (hparam | ⟨d, m, hdef', hlt⟩)
  · exact not_mem_params hn hdef.mem_destsAt hparam
  · obtain ⟨rfl, rfl⟩ := hdef.unique hn hdef'
    rcases hlt with hdom | ⟨rfl, hlt⟩
    · exact hdom.1 (hdom.2.antisymm (hl.dominates_of_mem hb) (hl.live_of_mem hb))
    · simp [isPhi_of_lt_phis hi hlt] at hphi

/-- An activation begins behind the phis of the header. -/
theorem done_of_enter (hM : f.moment? args limit first = some M) (hhead : M.block = l.header)
    (hout : ∀ k M₀, first = k + 1 → f.moment? args limit k = some M₀ → M₀.block ∉ l.blocks) :
    M.done = (f.phisAt l.header).length := by
  cases first with
  | zero =>
    rw [moment?] at hM
    obtain ⟨-, ⟨⟩⟩ := Option.ite_none_right_eq_some.mp hM
    rw [← hhead]
    rfl
  | succ k =>
    obtain ⟨M₀, hM₀, hnext⟩ := moment?_succ.mp hM
    cases Moment.step_of_next hn hnext with
    | instr _ _ _ hblock _ _ _ =>
      -- an instruction would have been executed in the loop already
      exact absurd (hblock ▸ hhead ▸ hl.header_mem) (hout k M₀ rfl hM₀)
    | edge _ _ hdone _ _ _ _ => rw [hdone, hhead]

/-- A value of the loop that is no phi and available in it was computed earlier in the same activation. -/
theorem computed {b : BlockId} {n : Nat} {i : Instr} (hi : f.instrAt? b n = some i) (hd : i.dest? = some v)
    (hphi : i.isPhi = false) (hb : b ∈ l.blocks) (h : f.Activation args limit l first M)
    (hv : f.AvailableBefore M.block M.done v) :
    ∃ M₀ M₁, f.Activation args limit l first M₀ ∧ M₀.Step f M₁ ∧ v ∈ M₁.fresh ∧
      M.machine.env.get? v = M₁.machine.env.get? v := by
  induction h with
  | enter hM hhead hout =>
    rw [hhead, done_of_enter hn hl hM hhead hout] at hv
    exact absurd hv (not_available_at_header hn hl hi hd hphi hb)
  | @stay M M' hact hnext _ ih =>
    have hstep := Moment.step_of_next hn hnext
    by_cases hfresh : v ∈ M'.fresh
    · exact ⟨M, M', hact, hstep, hfresh, rfl⟩
    · obtain ⟨M₀, M₁, hact₀, hstep₀, hfresh₀, heq⟩ := ih (hstep.available hv hfresh)
      exact ⟨M₀, M₁, hact₀, hstep₀, hfresh₀, (hstep.env hfresh).trans heq⟩

end Func.Activation

/-! ## What a block reads -/

/-- A block reads a value. -/
def Func.ReadsAt (f : Func) (b : BlockId) (v : ValueId) : Prop := ∃ blk, f.block? b = some blk ∧ blk.reads v = true

namespace Func.ReadsAt

variable {f : Func} {b : BlockId} {v : ValueId} {i : Instr}

theorem of_instr (hi : i ∈ f.instrsOf b) (hr : v ∈ i.reads) : f.ReadsAt b v := by
  cases hblk : f.block? b with
  | none =>
    rw [instrsOf, hblk] at hi
    cases hi
  | some blk =>
    rw [instrsOf_eq hblk] at hi
    refine ⟨blk, hblk, Bool.or_eq_true_iff.mpr (Or.inl (List.any_eq_true.mpr ⟨i, hi, ?_⟩))⟩
    simpa [Instr.uses] using hr

theorem of_source (hi : i ∈ f.phisAt b) {sources : List (BlockId × Operand)} (hs : i.sources? = some sources) {a : BlockId}
    (h : (a, .var v) ∈ sources) : f.ReadsAt b v :=
  of_instr (mem_instrsOf_of_phi hi) ((i.mem_reads_of_sources hs).mpr ⟨_, h, rfl⟩)

theorem of_term {t : Terminator} (ht : f.term? b = some t) (hr : v ∈ valuesOf t.operands) : f.ReadsAt b v := by
  obtain ⟨blk, hblk, rfl⟩ := Option.map_eq_some_iff.mp ht
  exact ⟨blk, hblk, Bool.or_eq_true_iff.mpr (Or.inr (by simpa [Terminator.uses] using hr))⟩

end Func.ReadsAt

namespace Snapshot

variable {f : Func} {l l₁ l₂ : Loop} {v : ValueId}

theorem definedIn_iff (hn : f.defined.Nodup) : (Snapshot.of f).definedIn l v = true ↔ ∃ b ∈ l.blocks, v ∈ f.destsAt b := by
  have hfunc : (Snapshot.of f).func = f := rfl
  simp only [definedIn, hfunc, Option.any_eq_true, Func.definingBlock?_eq_some_iff hn, Loop.contains, List.contains_iff_mem]
  exact exists_congr fun b => and_comm

/-- What makes a value of a loop repeated: a pure instruction from repeated values. -/
theorem repeats?_succ (hn : f.defined.Nodup) {depth : Nat} (h : (Snapshot.of f).repeats? l (depth + 1) v = some true) :
    (∀ b n, f.DefinedAt v b n → b ∉ l.blocks) ∨
      ∃ b n i, b ∈ l.blocks ∧ f.instrAt? b n = some i ∧ i.dest? = some v ∧ i.isPure = true ∧
        ∀ w ∈ i.reads, (Snapshot.of f).repeats? l depth w = some true := by
  have hfunc : (Snapshot.of f).func = f := rfl
  by_cases hin : (Snapshot.of f).definedIn l v = true
  · obtain ⟨b, hb, hv⟩ := (definedIn_iff hn).mp hin
    obtain ⟨n, i, hi, hd⟩ := Func.mem_destsAt_iff_index.mp hv
    simp only [repeats?, hin, hfunc, Func.definition?_eq_some hn hi hd, if_true] at h
    split at h
    · rename_i hpure
      obtain ⟨holds, huses, hall⟩ := allDecided_eq_some_iff.mp h
      refine .inr ⟨b, n, i, hb, hi, hd, hpure, fun w hw => ?_⟩
      have hw : w ∈ i.uses := by simpa [Instr.uses] using hw
      rw [huses w hw, List.all_eq_true.mp hall w hw]
    · cases h
  · exact .inl fun b n hdef hb => hin ((definedIn_iff hn).mpr ⟨b, hb, hdef.mem_destsAt⟩)

end Snapshot

namespace Func

variable {f : Func} {args : List Word} {limit first : Nat} {l : Loop} {v : ValueId}

/-- **A repeated value holds one datum in an activation**, wherever it is available. The induction follows the definitions
as the gate does: operands from outside stay as they are, and a pure instruction on equal operands gives equal results. -/
theorem Activation.get?_of_repeats? (hf : f.Valid) (hl : IsLoop f l) {depth : Nat}
    (hrep : (Snapshot.of f).repeats? l depth v = some true) {M M' : Moment} (h : f.Activation args limit l first M)
    (h' : f.Activation args limit l first M') (hv : f.AvailableBefore M.block M.done v)
    (hv' : f.AvailableBefore M'.block M'.done v) : M'.machine.env.get? v = M.machine.env.get? v := by
  induction depth generalizing v M M' with
  | zero => cases hrep
  | succ depth ih =>
    rcases Snapshot.repeats?_succ hf.once hrep with hout | ⟨b, n, i, hb, hi, hd, hpure, hreads⟩
    · exact get?_of_outside hf.once hout h h'
    · have hphi : i.isPhi = false := i.op.isPhi_of_isPure hpure
      obtain ⟨M₀, M₁, hact, hstep, hfresh, heq⟩ := computed hf.once hl hi hd hphi hb h hv
      obtain ⟨M₀', M₁', hact', hstep', hfresh', heq'⟩ := computed hf.once hl hi hd hphi hb h' hv'
      obtain ⟨hb₀, hn₀, -, -, m, henv, hexec⟩ := hstep.executes hf.once hi hd hphi hfresh
      obtain ⟨hb₀', hn₀', -, -, m', henv', hexec'⟩ := hstep'.executes hf.once hi hd hphi hfresh'
      have hread : ∀ o ∈ i.op.operands, m'.read o = m.read o := by
        intro o ho
        rw [Machine.read_of_env henv, Machine.read_of_env henv']
        cases o with
        | lit _ => rfl
        | var w =>
          have havail := readable_operand hf hi hphi (hl.live_of_mem hb) ho w rfl
          have hw : w ∈ i.reads := List.mem_filterMap.mpr ⟨_, ho, rfl⟩
          have hsame := ih (hreads w hw) hact hact' (by rwa [hb₀, hn₀]) (by rwa [hb₀', hn₀'])
          simp only [Machine.read, hsame]
      obtain ⟨x, hx, hx'⟩ := Machine.execute_pure hpure hd hread hexec hexec'
      rw [heq, heq', hx, hx']

/-- A value that a pure instruction of the loop defines is bound wherever it is available. -/
theorem Activation.exists_datum (hn : f.defined.Nodup) (hl : IsLoop f l) {b : BlockId} {n : Nat} {i : Instr}
    (hi : f.instrAt? b n = some i) (hd : i.dest? = some v) (hpure : i.isPure = true) (hb : b ∈ l.blocks) {M : Moment}
    (h : f.Activation args limit l first M) (hv : f.AvailableBefore M.block M.done v) :
    ∃ x, M.machine.env.get? v = some x := by
  have hphi : i.isPhi = false := i.op.isPhi_of_isPure hpure
  obtain ⟨M₀, M₁, -, hstep, hfresh, heq⟩ := computed hn hl hi hd hphi hb h hv
  obtain ⟨-, -, -, -, m, -, hexec⟩ := hstep.executes hn hi hd hphi hfresh
  obtain ⟨x, hx, -⟩ := Machine.execute_pure hpure hd (fun _ _ => rfl) hexec hexec
  exact ⟨x, heq.trans hx⟩

end Func

namespace Snapshot

variable {f : Func} {l₁ l₂ : Loop} {v : ValueId}

/-- A read on which no dependence is reported is of a value that is repeated, or has no definition. -/
theorem isRepeated?_of_scalarHazards {s : Snapshot} {reads : List (Position × ValueId)}
    (h : s.scalarHazards l₁ reads = some []) {sink : Position} (hv : (sink, v) ∈ reads) :
    s.isRepeated? l₁ v = some true ∨ s.func.definition? v = none := by
  induction reads with
  | nil => cases hv
  | cons read rest ih =>
    simp only [scalarHazards, Option.bind_eq_bind, Option.bind_eq_some_iff, Option.pure_def, Option.some.injEq,
      List.append_eq_nil_iff] at h
    obtain ⟨repeated, hrep, others, hothers, hhere, rfl⟩ := h
    rcases List.mem_cons.mp hv with rfl | hv
    · cases repeated with
      | true => exact .inl hrep
      | false => exact .inr (by simpa using hhere)
    · exact ih hothers hv

theorem exists_mem_readsOf {s : Snapshot} {b : BlockId} {blk : Block} (hb : b ∈ l₂.blocks)
    (hblk : s.func.block? b = some blk) (hread : blk.reads v = true) : ∃ sink, (sink, v) ∈ s.readsOf l₂ := by
  have hhere : ∃ sink, (sink, v) ∈ readsAt b blk := by
    simp only [Block.reads, Bool.or_eq_true, List.any_eq_true, List.contains_iff_mem] at hread
    rcases hread with ⟨i, hi, hv⟩ | hv
    · obtain ⟨n, hn⟩ := List.getElem?_of_mem hi
      have hmem : (i, n) ∈ blk.instrs.zipIdx := List.mk_mem_zipIdx_iff_getElem?.mpr hn
      exact ⟨⟨b, n⟩, List.mem_append_left _ (List.mem_flatMap.mpr ⟨(i, n), hmem, List.mem_map.mpr ⟨v, hv, rfl⟩⟩)⟩
    · exact ⟨⟨b, blk.instrs.length⟩, List.mem_append_right _ (List.mem_map.mpr ⟨v, hv, rfl⟩)⟩
  obtain ⟨sink, hsink⟩ := hhere
  exact ⟨sink, List.mem_flatMap.mpr ⟨b, hb, by rw [hblk]; exact hsink⟩⟩

/-- A value of the first loop that a block of the second reads is repeated if no dependence is reported. -/
theorem isRepeated?_of_unreported (hn : f.defined.Nodup) (hnone : (Snapshot.of f).scalarDependences l₁ l₂ = some [])
    {b : BlockId} {blk : Block} (hb : b ∈ l₂.blocks) (hblk : f.block? b = some blk) (hread : blk.reads v = true)
    (hdef : (Snapshot.of f).definedIn l₁ v = true) : (Snapshot.of f).isRepeated? l₁ v = some true := by
  obtain ⟨sink, hsink⟩ := exists_mem_readsOf (s := Snapshot.of f) hb hblk hread
  refine (isRepeated?_of_scalarHazards hnone hsink).resolve_right fun hundefined => ?_
  obtain ⟨d, -, hv⟩ := (definedIn_iff hn).mp hdef
  obtain ⟨n, i, hi, hd⟩ := Func.mem_destsAt_iff_index.mp hv
  cases hundefined.symm.trans (Func.definition?_eq_some hn hi hd)

end Snapshot

/-- **The values that the second loop reads are the same in every round of the first.** In a valid function, let no
dependence of a loop on a loop `l₁` through values be reported, and let a block of it read a value that `l₁` defines. In
every run and every activation of `l₁`, whenever the value is computed, it is computed to be the same datum. -/
theorem unreported_values_repeat (f : Func) (hf : f.isValid = true) {l₁ : Loop} (hl₁ : l₁ ∈ f.loops) (l₂ : Loop)
    (hnone : (Snapshot.of f).scalarDependences l₁ l₂ = some []) {v : ValueId} (hdef : ∃ b ∈ l₁.blocks, v ∈ f.destsAt b)
    (hread : ∃ b ∈ l₂.blocks, ∃ blk, f.block? b = some blk ∧ blk.reads v = true) (args : List Word) (limit first : Nat)
    {M M' : Moment} (h : f.Activation args limit l₁ first M) (h' : f.Activation args limit l₁ first M')
    (hv : v ∈ M.fresh) (hv' : v ∈ M'.fresh) :
    ∃ x, M.machine.env.get? v = some x ∧ M'.machine.env.get? v = some x := by
  have hvalid := Func.isValid_iff.mp hf
  have hn := hvalid.once
  have hloop := isLoop_of_mem hl₁
  obtain ⟨b, hb, blk, hblk, hreads⟩ := hread
  have hrep := Snapshot.isRepeated?_of_unreported hn hnone hb hblk hreads ((Snapshot.definedIn_iff hn).mpr hdef)
  obtain ⟨k, hM⟩ := h.exists_moment
  obtain ⟨k', hM'⟩ := h'.exists_moment
  have havail := Func.availableBefore_of_fresh hn hM hv
  have hsame := h.get?_of_repeats? hvalid hloop hrep h' havail (Func.availableBefore_of_fresh hn hM' hv')
  obtain ⟨d, hd, hvd⟩ := hdef
  obtain ⟨n, i, hi, hdest⟩ := Func.mem_destsAt_iff_index.mp hvd
  -- the value is defined in the loop, so the gate has found it to come from a pure instruction
  have hpure : i.isPure = true := by
    rcases Snapshot.repeats?_succ hn hrep with hout | ⟨c, m, j, -, hj, hjd, hpure, -⟩
    · exact absurd hd (hout d n ⟨i, hi, hdest⟩)
    · obtain ⟨rfl, rfl⟩ := Func.DefinedAt.unique hn ⟨i, hi, hdest⟩ ⟨j, hj, hjd⟩
      cases hi.symm.trans hj
      exact hpure
  obtain ⟨x, hx⟩ := h.exists_datum hn hloop hi hdest hpure hd havail
  exact ⟨x, hx, hsame.trans hx⟩

/-- Doubles its parameter and adds seven in every round of a loop, and adds the result up in another. -/
def sharedScale : Func where
  name := "sharedScale"
  params := [0]
  blocks := [
    { term := .jump 1 },
    { instrs := [
        { op := .phi 1 [(0, .lit (.int 0)), (1, .var 2)] },
        { op := .binary .mul 3 (.var 0) (.lit (.int 2)) },
        { op := .binary .add 4 (.var 3) (.lit (.int 7)) },
        { op := .binary .add 2 (.var 1) (.lit (.int 1)) },
        { op := .binary .lt 5 (.var 2) (.lit (.int 3)) }],
      term := .branch (.var 5) 1 2 },
    { term := .jump 3 },
    { instrs := [
        { op := .phi 6 [(2, .lit (.int 0)), (3, .var 7)] },
        { op := .binary .add 7 (.var 6) (.var 4) },
        { op := .binary .lt 8 (.var 7) (.lit (.int 100)) }],
      term := .branch (.var 8) 3 4 },
    { term := .ret [.var 7] }]

def sharedScaleLoops : Loop × Loop := (sharedScale.loops.headD default, sharedScale.loops.getLastD default)

/-- The first two rounds of the first loop compute the same datum, which is not that of its counter. -/
theorem sharedScale_values_repeat :
    (Snapshot.of sharedScale).scalarDependences sharedScaleLoops.1 sharedScaleLoops.2 = some [] ∧
      ∃ M M', sharedScale.Activation [5] 100 sharedScaleLoops.1 1 M ∧
        sharedScale.Activation [5] 100 sharedScaleLoops.1 1 M' ∧ 4 ∈ M.fresh ∧ 4 ∈ M'.fresh ∧
        M.machine.env.get? 1 ≠ M'.machine.env.get? 1 ∧
        ∃ x, M.machine.env.get? 4 = some x ∧ M'.machine.env.get? 4 = some x := by
  have hnone : (Snapshot.of sharedScale).scalarDependences sharedScaleLoops.1 sharedScaleLoops.2 = some [] := by decide +kernel
  have hframe : sharedScaleLoops.1.header = 1 ∧ sharedScaleLoops.1.blocks = [1] ∧ sharedScaleLoops.2.blocks = [3] := by
    decide +kernel
  have hblock : ∀ k ≤ 7, (sharedScale.moment? [5] 100 (1 + k)).map Moment.block = some 1 := by decide +kernel
  have hstart : (sharedScale.moment? [5] 100 0).map Moment.block = some 0 := by decide +kernel
  have hcome : ∀ k M₀, 1 = k + 1 → sharedScale.moment? [5] 100 k = some M₀ → M₀.block ∉ sharedScaleLoops.1.blocks := by
    intro k M₀ hk hM₀
    obtain rfl : k = 0 := by omega
    rw [hM₀, Option.map_some, Option.some.injEq] at hstart
    simp [hframe.2.1, hstart]
  have hstays : ∀ k ≤ 7, ∀ M₀, sharedScale.moment? [5] 100 (1 + k) = some M₀ → M₀.block = 1 := by
    intro k hk M₀ hM₀
    have := hblock k hk
    rwa [hM₀, Option.map_some, Option.some.injEq] at this
  have hact : ∀ n ≤ 7, ∀ M, sharedScale.moment? [5] 100 (1 + n) = some M →
      sharedScale.Activation [5] 100 sharedScaleLoops.1 1 M := by
    intro n hn M hM
    refine .of_moments hcome (fun M₀ hM₀ => ?_) (fun k hk M₀ hM₀ => ?_) hM
    · rw [hframe.1, hstays 0 (by omega) M₀ hM₀]
    · simp [hframe.2.1, hstays k (by omega) M₀ hM₀]
  obtain ⟨M, hM, hv, h1⟩ : ∃ M, sharedScale.moment? [5] 100 (1 + 2) = some M ∧ 4 ∈ M.fresh ∧
      M.machine.env.get? 1 = some (.int 0) := ⟨_, rfl, by decide +kernel, by decide +kernel⟩
  obtain ⟨M', hM', hv', h1'⟩ : ∃ M, sharedScale.moment? [5] 100 (1 + 7) = some M ∧ 4 ∈ M.fresh ∧
      M.machine.env.get? 1 = some (.int 1) := ⟨_, rfl, by decide +kernel, by decide +kernel⟩
  have hA := hact 2 (by omega) M hM
  have hA' := hact 7 (by omega) M' hM'
  refine ⟨hnone, M, M', hA, hA', hv, hv', by rw [h1, h1']; decide, ?_⟩
  exact unreported_values_repeat sharedScale (by decide +kernel) (by decide +kernel) sharedScaleLoops.2 hnone
    ⟨1, by decide +kernel, by decide +kernel⟩ ⟨3, by decide +kernel, _, rfl, by decide +kernel⟩ [5] 100 1 hA hA' hv hv'

end SsaFusion
