import SsaFusion.Proofs.Machine.Actions
import SsaFusion.Proofs.Machine.Budget
import SsaFusion.Proofs.Machine.Stops

/-!
# Runs that return

The moments of a run that returns are numbered from the first to the last (`Completes`). A step between two of them either
executes an instruction, which is an action on the store (`Executes`), or takes an edge, which binds the phis of the next block
and leaves memory alone (`Moves`). From these come the frames: a value keeps its datum over a stretch in whose blocks it is not
defined (`env_frame`), a cell keeps its content over a stretch in which nothing writes it (`cell_frame`), and the count of a
loop only grows while control stays in the loop (`rounds_mono`).

The other way around, a function returns from the start of a block if the code of the block runs and the next block returns
(`Returns`).
-/

namespace SsaFusion

namespace Machine

variable {m m' m₁ : Machine} {limit : Nat} {f : Func} {a b : BlockId}

theorem gather_counts {is : List Instr} {incoming : List (ValueId × Datum)} (hphi : ∀ i ∈ is, i.isPhi = true)
    (h : m.gather limit a b is = .ok (m₁, incoming)) : m₁.memory = m.memory ∧ m₁.steps = m.steps + is.length := by
  induction is generalizing m incoming with
  | nil =>
    cases h
    exact ⟨rfl, rfl⟩
  | cons i rest ih =>
    obtain ⟨d, sources, hop⟩ := Instr.eq_phi_of_isPhi (hphi i (List.mem_cons_self ..))
    simp only [gather, hop] at h
    obtain ⟨m₂, htick, h⟩ := bind_eq_ok h
    obtain ⟨-, rfl⟩ := tick_eq_ok.mp htick
    split at h
    · cases h
    · obtain ⟨x, -, h⟩ := bind_eq_ok h
      obtain ⟨⟨m₃, more⟩, hrest, h⟩ := bind_eq_ok h
      cases h
      obtain ⟨hmem, hsteps⟩ := ih (fun i hi => hphi i (List.mem_cons_of_mem _ hi)) hrest
      exact ⟨hmem, hsteps.trans (by rw [List.length_cons]; simp only; omega)⟩

/-- Entering a block takes a step for every phi and leaves memory alone. -/
theorem runInstrs_append (is js : List Instr) :
    m.runInstrs limit (is ++ js) = m.runInstrs limit is >>= fun m => m.runInstrs limit js := by
  induction is generalizing m with
  | nil => rfl
  | cons i is ih =>
    rw [List.cons_append, runInstrs, runInstrs]
    cases m.tick limit with
    | error e => rfl
    | ok m =>
      rw [ok_bind, ok_bind]
      cases m.execute i.op with
      | error e => rfl
      | ok m => exact ih

theorem enter_counts (h : m.enter f limit a b = .ok m₁) :
    m₁.memory = m.memory ∧ m₁.steps = m.steps + (f.phisAt b).length := by
  unfold enter at h
  split at h
  · cases h
  · rename_i blk hblk
    obtain ⟨⟨m₂, incoming⟩, hg, h⟩ := bind_eq_ok h
    cases h
    have := gather_counts (fun i hi => Block.isPhi_of_mem_phis hi) hg
    rw [Func.phisAt, hblk]
    exact this

/-- An operator reads nothing but its operands. -/
theorem binary_congr {op : BinOp} {x y : Operand} (hx : m'.read x = m.read x) (hy : m'.read y = m.read y) :
    m'.binary op x y = m.binary op x y := by
  cases op <;> simp only [binary, onInts, onBools, equal, readInt, readBool, hx, hy]

end Machine

namespace Moment

variable {f : Func} {M M' : Moment}

/-- The cell that the next instruction reads or writes, and whether it writes it. -/
def access? (f : Func) (M : Moment) : Option ((Nat × Nat) × Bool) :=
  (f.instrAt? M.block M.done).bind fun i => M.machine.access? i.op

theorem access?_eq_none {i : Instr} (hi : f.instrAt? M.block M.done = some i) (hmem : i.touchesMemory = false) :
    M.access? f = none := by
  rw [access?, hi, Option.bind_some]
  cases hop : i.op with
  | load | store => simp [Instr.touchesMemory, hop, Op.touchesMemory] at hmem
  | assign | unary | binary | phi | alloc | shift | nop => rfl

/-- A step that executes an instruction. -/
structure Executes (f : Func) (M M' : Moment) (i : Instr) (act : Action) : Prop where
  instr : f.instrAt? M.block M.done = some i
  action : M.machine.action i.op = .ok act
  store : M'.machine.store = M.machine.store.perform M.machine.memory.size act
  steps : M'.machine.steps = M.machine.steps + 1
  block : M'.block = M.block
  done : M'.done = M.done + 1
  rounds : M'.rounds = M.rounds

theorem Executes.access? {i : Instr} {act : Action} (h : M.Executes f M' i act) : M.access? f = M.machine.access? i.op := by
  rw [Moment.access?, h.instr, Option.bind_some]

theorem Executes.env {i : Instr} {act : Action} {v : ValueId} (h : M.Executes f M' i act) (hv : i.dest? ≠ some v) :
    M'.machine.env.get? v = M.machine.env.get? v :=
  (congrFun (congrArg Store.env h.store) v).trans (Store.env_perform fun hd => hv (Machine.dest?_of_action h.action hd))

theorem Executes.get?_bind {i : Instr} {v : ValueId} {x : Datum} (h : M.Executes f M' i (.bind v x)) :
    M'.machine.env.get? v = some x :=
  (congrFun (congrArg Store.env h.store) v).trans (Function.update_self ..)

theorem Executes.get?_make {i : Instr} {v : ValueId} {size : Nat} (h : M.Executes f M' i (.make v size)) :
    M'.machine.env.get? v = some (.ptr M.machine.memory.size 0) :=
  (congrFun (congrArg Store.env h.store) v).trans (Function.update_self ..)

/-- A step that takes an edge. -/
structure Moves (f : Func) (M M' : Moment) : Prop where
  last : f.instrAt? M.block M.done = none
  transfer : ∃ t, f.term? M.block = some t ∧ M.machine.transfer M.block t = .ok (.goto M'.block)
  memory : M'.machine.memory = M.machine.memory
  steps : M'.machine.steps = M.machine.steps + 1 + (f.phisAt M'.block).length
  done : M'.done = (f.phisAt M'.block).length
  rounds : M'.rounds = f.tally M.rounds M.block M'.block
  frame : ∀ v, v ∉ (f.phisAt M'.block).filterMap Instr.dest? → M'.machine.env.get? v = M.machine.env.get? v
  bound : ∀ i ∈ f.phisAt M'.block, ∀ d sources, i.op = .phi d sources → ∃ s x,
    sources.find? (·.1 == M.block) = some s ∧ M.machine.read s.2 = .ok x ∧ M'.machine.env.get? d = some x

theorem Moves.edge (h : M.Moves f M') : M'.block ∈ f.successors M.block := by
  obtain ⟨t, ht, htrans⟩ := h.transfer
  exact Machine.transfer_mem ht htrans

theorem Moves.cell? (h : M.Moves f M') (a n : Nat) : M'.machine.cell? a n = M.machine.cell? a n := by
  rw [Machine.cell?, Machine.cell?, h.memory]

/-- Control is at the start of a block, behind its phis. -/
def StartsAt (f : Func) (M : Moment) (b : BlockId) : Prop := M.block = b ∧ M.done = (f.phisAt b).length

/-- Control is behind the last instruction of a block. -/
def EndsAt (f : Func) (M : Moment) (b : BlockId) : Prop := M.block = b ∧ f.instrAt? b M.done = none

theorem Moves.starts (h : M.Moves f M') : M'.StartsAt f M'.block := ⟨rfl, h.done⟩

end Moment

/-- A run that returns, with its moments. -/
structure Func.Completes (f : Func) (args : List Word) (limit : Nat) (M : Nat → Moment) (N : Nat) (r : RunResult) : Prop where
  moment : ∀ k ≤ N, f.moment? args limit k = some (M k)
  last : (M N).next f limit = .ok (.inr r)

namespace Func

variable {f : Func} {args : List Word} {limit N k k' : Nat} {M : Nat → Moment} {r : RunResult} {b h : BlockId} {v : ValueId}

/-- Before a moment there are moments. -/
theorem exists_earlier_moment {m : Moment} (h : f.moment? args limit k = some m) (hle : k' ≤ k) :
    ∃ m', f.moment? args limit k' = some m' := by
  induction hle using Nat.decreasingInduction with
  | self => exact ⟨m, h⟩
  | of_succ n _ ih =>
    obtain ⟨m', hm'⟩ := ih
    obtain ⟨m₀, hm₀, -⟩ := moment?_succ.mp hm'
    exact ⟨m₀, hm₀⟩

theorem exists_completes (h : f.run args limit = .ok r) : ∃ M N, f.Completes args limit M N r := by
  have hlen : args.length = f.params.length := by
    by_contra hne
    rw [run, if_neg hne] at h
    cases h
  have hstart : f.moment? args limit 0 = some (f.start args) := if_pos hlen
  obtain ⟨N, M, hM, hnext⟩ := endsIn_run hstart
  rw [h] at hnext
  refine ⟨fun n => (f.moment? args limit n).getD (f.start args), N, fun n hn => ?_, ?_⟩
  · obtain ⟨M', hM'⟩ := exists_earlier_moment hM hn
    simp only [hM', Option.getD_some]
  · simp only [hM, Option.getD_some]
    exact hnext

theorem AvailableOut.of_step {c : BlockId} (h : f.AvailableOut c v) (hstep : c ∈ f.successors b) (hv : v ∉ f.destsAt c) :
    f.AvailableOut b v := by
  rcases h with h | ⟨d, hd, hvd⟩
  · exact Or.inl h
  · exact Or.inr ⟨d, hd.of_step (fun e => hv (e ▸ hvd)) hstep, hvd⟩

theorem AvailableBefore.out {n : Nat} (h : f.AvailableBefore b n v) : f.AvailableOut b v := by
  refine availableOut_iff.mpr (h.imp_right ?_)
  rintro ⟨m, -, hm⟩
  exact hm.mem_destsAt

theorem instrAt?_body (n : Nat) : f.instrAt? b ((f.phisAt b).length + n) = (f.bodyAt b)[n]? := by
  rw [instrAt?, ← f.drop_phisAt b, List.getElem?_drop]

namespace Completes

variable (C : f.Completes args limit M N r)

include C

theorem next (hk : k < N) : (M k).next f limit = .ok (.inl (M (k + 1))) := by
  obtain ⟨M₀, hM₀, hnext⟩ := moment?_succ.mp (C.moment (k + 1) hk)
  obtain rfl := Option.some.inj ((C.moment k hk.le).symm.trans hM₀)
  exact hnext

/-- There are no other moments. -/
theorem eq_of_moment? {M₀ : Moment} (h : f.moment? args limit k = some M₀) : k ≤ N ∧ M₀ = M k := by
  have hle : k ≤ N := by
    by_contra hlt
    obtain ⟨M', hM'⟩ := exists_earlier_moment h (show N + 1 ≤ k by omega)
    obtain ⟨M₁, hM₁, hnext⟩ := moment?_succ.mp hM'
    rw [Option.some.inj (hM₁.symm.trans (C.moment N (Nat.le_refl N))), C.last] at hnext
    cases hnext
  exact ⟨hle, Option.some.inj (h.symm.trans (C.moment k hle))⟩

theorem start (hN : f.moment? args limit 0 = some (M 0)) : M 0 = f.start args := by
  have hlen := length_args_of_moment? (C.moment 0 (Nat.zero_le _))
  rw [moment?, if_pos hlen] at hN
  exact (Option.some.inj hN).symm

theorem steps_le (hk : k ≤ N) : (M k).machine.steps ≤ limit := (moment?_steps (C.moment k hk)).2

theorem live (hn : f.defined.Nodup) (hk : k ≤ N) : f.Live (M k).block := (live_moment hn (C.moment k hk)).1

/-- An instruction that is due is executed. -/
theorem executes (hk : k ≤ N) {i : Instr} (hi : f.instrAt? (M k).block (M k).done = some i) :
    k < N ∧ ∃ act, (M k).Executes f (M (k + 1)) i act := by
  have hlt : k < N := by
    refine Nat.lt_of_le_of_ne hk ?_
    rintro rfl
    have hlast := C.last
    rw [Moment.next_of_instr hi] at hlast
    obtain ⟨m, -, hlast⟩ := bind_eq_ok hlast
    obtain ⟨m', -, hlast⟩ := bind_eq_ok hlast
    cases hlast
  refine ⟨hlt, ?_⟩
  have hnext := C.next hlt
  rw [Moment.next_of_instr hi] at hnext
  obtain ⟨m, htick, hnext⟩ := bind_eq_ok hnext
  obtain ⟨m', hexec, hnext⟩ := bind_eq_ok hnext
  obtain ⟨-, rfl⟩ := Machine.tick_eq_ok.mp htick
  obtain ⟨act, hact, rfl⟩ := Machine.execute_eq_ok hexec
  have hM := Sum.inl.inj (Except.ok.inj hnext)
  have hact' : (M k).machine.action i.op = .ok act := hact
  refine ⟨act, hi, hact', ?_, ?_, ?_, ?_, ?_⟩
  · rw [← hM]
    exact Machine.store_perform (Machine.allows_of_action hact)
  · rw [← hM]
    exact (Machine.execute_frame hexec).1
  all_goals rw [← hM]

/-- Behind the last instruction of a block, control takes an edge or the run returns. -/
theorem moves (hn : f.defined.Nodup) (hk : k < N) (hi : f.instrAt? (M k).block (M k).done = none) :
    (M k).Moves f (M (k + 1)) := by
  have hnext := C.next hk
  have hstep := Moment.step_of_next hn hnext
  obtain ⟨blk, hblk⟩ : ∃ blk, f.block? (M k).block = some blk := by
    cases hblk : f.block? (M k).block with
    | none =>
      rw [Moment.next, hblk] at hnext
      cases hnext
    | some blk => exact ⟨blk, rfl⟩
  obtain ⟨m, m₁, target, htick, htrans, henter, hM⟩ := Moment.goto_of_next hblk hi hnext
  obtain ⟨-, rfl⟩ := Machine.tick_eq_ok.mp htick
  obtain ⟨hmem, hsteps⟩ := Machine.enter_counts henter
  cases hstep with
  | instr h => rw [hi] at h; cases h
  | edge _ _ hdone hrounds hfresh hframe hbound =>
    refine ⟨hi, ⟨blk.term, f.term?_eq hblk, ?_⟩, ?_, ?_, hdone, hrounds, fun v hv => hframe v (hfresh ▸ hv), hbound⟩
    · rw [hM]
      exact (Machine.transfer_of_env (by rfl) _ _).trans htrans
    · rw [hM]
      exact hmem
    · rw [hM]
      exact hsteps

/-- The last moment stands behind a block that returns. -/
theorem returns : f.instrAt? (M N).block (M N).done = none ∧ (M N).machine.steps < limit ∧
    ∃ t, f.term? (M N).block = some t ∧ (M N).machine.transfer (M N).block t = .ok (.finish r.values) := by
  have hlast := C.last
  have hi : f.instrAt? (M N).block (M N).done = none := by
    cases hi : f.instrAt? (M N).block (M N).done with
    | none => rfl
    | some i => exact absurd (C.executes (Nat.le_refl _) hi).1 (Nat.lt_irrefl _)
  cases hblk : f.block? (M N).block with
  | none =>
    rw [Moment.next, hblk] at hlast
    cases hlast
  | some blk =>
    have hdone : blk.instrs[(M N).done]? = none := by rwa [Func.instrAt?, Func.instrsOf_eq hblk] at hi
    simp only [Moment.next, hblk, hdone] at hlast
    obtain ⟨m, htick, hlast⟩ := bind_eq_ok hlast
    obtain ⟨hlt, rfl⟩ := Machine.tick_eq_ok.mp htick
    obtain ⟨t, htrans, hlast⟩ := bind_eq_ok hlast
    refine ⟨hi, hlt, blk.term, f.term?_eq hblk, ?_⟩
    cases t with
    | goto =>
      obtain ⟨_, _, hlast⟩ := bind_eq_ok hlast
      cases hlast
    | finish values =>
      cases hlast
      rw [← htrans]
      exact Machine.transfer_of_env (by rfl) _ _

/-- A step executes an instruction or takes an edge. -/
theorem step_cases (hn : f.defined.Nodup) (hk : k < N) :
    (∃ i act, (M k).Executes f (M (k + 1)) i act) ∨ (M k).Moves f (M (k + 1)) := by
  cases hi : f.instrAt? (M k).block (M k).done with
  | none => exact Or.inr (C.moves hn hk hi)
  | some i =>
    obtain ⟨act, hact⟩ := (C.executes hk.le hi).2
    exact Or.inl ⟨i, act, hact⟩

section Frames

variable (hn : f.defined.Nodup)

include hn

/-- What is to be executed is code, not a phi. -/
theorem mem_bodyAt (hk : k ≤ N) {i : Instr} (hi : f.instrAt? (M k).block (M k).done = some i) : i ∈ f.bodyAt (M k).block := by
  have hdone := (live_moment hn (C.moment k hk)).2
  refine List.mem_of_getElem? (i := (M k).done - (f.phisAt (M k).block).length) ?_
  rw [← instrAt?_body, Nat.add_sub_cancel' hdone]
  exact hi

/-- Control leaves the end of a block by an edge. -/
theorem moves_of_ends (hk : k < N) (hb : (M k).EndsAt f b) : (M k).Moves f (M (k + 1)) :=
  C.moves hn hk (by rw [hb.1]; exact hb.2)

/-- Control came to the start of a block by an edge. -/
theorem moves_of_starts (hk : k + 1 ≤ N) (hb : (M (k + 1)).StartsAt f b) : (M k).Moves f (M (k + 1)) := by
  rcases C.step_cases hn hk with ⟨i, act, h⟩ | h
  · have hlen := (live_moment hn (C.moment k (by omega))).2
    have hblock := h.block
    have hdone := h.done
    rw [hb.1] at hblock
    rw [hb.2, hblock] at hdone
    omega
  · exact h

/-- Control stays in a region for a while and then leaves it by an edge, if no block of the region returns. -/
theorem exists_leave {R : BlockId → Prop} (hR : ∀ b, R b → ∃ c, c ∈ f.successors b) (hk : k ≤ N) (hin : R (M k).block) :
    ∃ n, k ≤ n ∧ n < N ∧ (∀ m, k ≤ m → m ≤ n → R (M m).block) ∧ (M n).Moves f (M (n + 1)) ∧ ¬R (M (n + 1)).block := by
  have hout : ¬R (M N).block := by
    intro h
    obtain ⟨c, hc⟩ := hR _ h
    obtain ⟨-, -, t, ht, htrans⟩ := C.returns
    obtain ⟨blk, hblk, hmem⟩ := mem_successors.mp hc
    cases (f.term?_eq hblk).symm.trans ht
    cases hterm : blk.term with
    | jump | unreachable =>
      rw [hterm] at htrans
      cases htrans
    | branch =>
      rw [hterm] at htrans
      obtain ⟨_, _, htrans⟩ := bind_eq_ok htrans
      cases htrans
    | ret =>
      rw [hterm] at hmem
      cases hmem
  have hex : ∃ m, k ≤ m ∧ ¬R (M m).block := ⟨N, hk, hout⟩
  classical
  obtain ⟨hkm, hm⟩ := Nat.find_spec hex
  have hbefore : ∀ m, k ≤ m → m < Nat.find hex → R (M m).block := by
    intro m hkm hlt
    by_contra h
    exact Nat.find_min hex hlt ⟨hkm, h⟩
  have hle : Nat.find hex ≤ N := Nat.find_min' hex ⟨hk, hout⟩
  cases hfind : Nat.find hex with
  | zero =>
    rw [hfind] at hkm hm
    obtain rfl := Nat.le_zero.mp hkm
    exact absurd hin hm
  | succ n =>
    rw [hfind] at hkm hm hbefore hle
    have hkn : k ≤ n := by
      rcases Nat.lt_or_ge n k with hlt | hge
      · obtain rfl : k = n + 1 := by omega
        exact absurd hin hm
      · exact hge
    refine ⟨n, hkn, hle, fun m hkm hmn => hbefore m hkm (by omega), ?_, hm⟩
    rcases C.step_cases hn hle with ⟨i, act, h⟩ | h
    · exact absurd (h.block ▸ hbefore n hkn (by omega)) hm
    · exact h

/-- A value keeps its datum over a step into a block that does not define it. -/
theorem env_step (hk : k < N) (hv : v ∉ f.destsAt (M (k + 1)).block) :
    (M (k + 1)).machine.env.get? v = (M k).machine.env.get? v := by
  have hstep := Moment.step_of_next hn (C.next hk)
  refine hstep.env fun hfresh => hv ?_
  obtain ⟨n, -, hdef⟩ := hstep.definedAt_of_fresh hfresh
  exact hdef.mem_destsAt

/-- A value keeps its datum over a stretch in whose blocks it is not defined. -/
theorem env_frame (hle : k ≤ k') (hk' : k' ≤ N) (hv : ∀ n, k < n → n ≤ k' → v ∉ f.destsAt (M n).block) :
    (M k').machine.env.get? v = (M k).machine.env.get? v := by
  induction k', hle using Nat.le_induction with
  | base => rfl
  | succ n hle ih =>
    rw [C.env_step hn hk' (hv (n + 1) (by omega) (Nat.le_refl _))]
    exact ih (by omega) fun m hm hm' => hv m hm (by omega)

/-- What is bound stays bound. -/
theorem bound_mono (hle : k ≤ k') (hk' : k' ≤ N) (hb : ∃ x, (M k).machine.env.get? v = some x) :
    ∃ x, (M k').machine.env.get? v = some x := by
  induction k', hle using Nat.le_induction with
  | base => exact hb
  | succ n hle ih =>
    obtain ⟨x, hx⟩ := ih (by omega)
    rcases C.step_cases hn hk' with ⟨i, act, h⟩ | h
    · have henv : (M (n + 1)).machine.env.get? v = _ := congrFun (congrArg Store.env h.store) v
      rw [henv]
      cases act with
      | bind d y | make d y =>
        by_cases hd : v = d
        · subst hd
          exact ⟨_, Function.update_self ..⟩
        · exact ⟨x, (Function.update_of_ne hd ..).trans hx⟩
      | write | skip => exact ⟨x, hx⟩
    · by_cases hphi : v ∈ (f.phisAt (M (n + 1)).block).filterMap Instr.dest?
      · obtain ⟨i, hi, hd⟩ := List.mem_filterMap.mp hphi
        obtain ⟨d, sources, hop⟩ := Instr.eq_phi_of_isPhi (f.isPhi_of_mem_phisAt hi)
        obtain ⟨-, y, -, -, hy⟩ := h.bound i hi d sources hop
        rw [Instr.dest?, hop] at hd
        cases hd
        exact ⟨y, hy⟩
      · exact ⟨x, (h.frame v hphi).trans hx⟩

theorem size_step (hk : k < N) : (M k).machine.memory.size ≤ (M (k + 1)).machine.memory.size := by
  rcases C.step_cases hn hk with ⟨i, act, h⟩ | h
  · have hmade := congrFun (congrArg Store.made h.store)
    by_contra hlt
    cases act with
    | bind | write | skip =>
      have := (hmade (M (k + 1)).machine.memory.size).mpr (by simpa [Machine.store, Store.perform] using hlt)
      simp [Machine.store] at this
    | make d size =>
      have := (hmade (M (k + 1)).machine.memory.size).mpr (Or.inr (by simpa [Machine.store] using hlt))
      simp [Machine.store] at this
  · rw [h.memory]

/-- Arrays stay. -/
theorem size_mono (hle : k ≤ k') (hk' : k' ≤ N) : (M k).machine.memory.size ≤ (M k').machine.memory.size := by
  induction k', hle using Nat.le_induction with
  | base => exact Nat.le_refl _
  | succ n hle ih => exact (ih (by omega)).trans (C.size_step hn hk')

theorem steps_mono (hle : k ≤ k') (hk' : k' ≤ N) : (M k).machine.steps ≤ (M k').machine.steps := by
  induction k', hle using Nat.le_induction with
  | base => exact Nat.le_refl _
  | succ n hle ih =>
    refine (ih (by omega)).trans ?_
    rcases C.step_cases hn hk' with ⟨i, act, h⟩ | h
    · rw [h.steps]
      omega
    · rw [h.steps]
      omega

/-- A cell keeps its content over a step that does not write it. -/
theorem cell_step (hk : k < N) {a n : Nat} (ha : a < (M k).machine.memory.size)
    (hw : (M k).access? f ≠ some ((a, n), true)) : (M (k + 1)).machine.cell? a n = (M k).machine.cell? a n := by
  rcases C.step_cases hn hk with ⟨i, act, h⟩ | h
  · have hcell : (M (k + 1)).machine.cell? a n = ((M k).machine.store.perform (M k).machine.memory.size act).cell a n :=
      congrFun (congrFun (congrArg Store.cell h.store) a) n
    rw [hcell]
    cases act with
    | bind | skip => rfl
    | make d size => exact congrFun (Function.update_of_ne (Nat.ne_of_lt ha) _ _) n
    | write b m x =>
      have hacc : (M k).access? f = some ((b, m), true) := by
        rw [h.access?]
        exact Machine.access?_of_write h.action
      by_cases hb : a = b
      · subst hb
        have hne : n ≠ m := by
          rintro rfl
          exact hw hacc
        simp only [Store.perform, Function.update_self, Function.update_of_ne hne]
        rfl
      · simp only [Store.perform, Function.update_of_ne hb]
        rfl
  · rw [Machine.cell?, h.memory]
    rfl

/-- A cell keeps its content over a stretch in which nothing writes it. -/
theorem cell_frame (hle : k ≤ k') (hk' : k' ≤ N) {a n : Nat} (ha : a < (M k).machine.memory.size)
    (hw : ∀ m, k ≤ m → m < k' → (M m).access? f ≠ some ((a, n), true)) :
    (M k').machine.cell? a n = (M k).machine.cell? a n := by
  induction k', hle using Nat.le_induction with
  | base => rfl
  | succ m hle ih =>
    have hsize := C.size_mono hn hle (by omega)
    rw [C.cell_step hn hk' (by omega) (hw m hle (by omega))]
    exact ih (by omega) fun l hl hl' => hw l hl (by omega)

/-- The count of a loop does not change away from its header. -/
theorem rounds_frame (hle : k ≤ k') (hk' : k' ≤ N) (hb : ∀ n, k < n → n ≤ k' → (M n).block ≠ h) :
    (M k').rounds h = (M k).rounds h := by
  induction k', hle using Nat.le_induction with
  | base => rfl
  | succ n hle ih =>
    refine Eq.trans ?_ (ih (by omega) fun m hm hm' => hb m hm (by omega))
    rcases C.step_cases hn hk' with ⟨i, act, hs⟩ | hs
    · rw [hs.rounds]
    · rw [hs.rounds, tally_of_ne (Ne.symm (hb (n + 1) (by omega) (Nat.le_refl _)))]

/-- The count of a loop does not fall while control stays in the loop. -/
theorem rounds_mono {l : Loop} (hl : l ∈ f.loops) (hle : k ≤ k') (hk' : k' ≤ N)
    (hb : ∀ n, k ≤ n → n ≤ k' → (M n).block ∈ l.blocks) : (M k).rounds l.header ≤ (M k').rounds l.header := by
  induction k', hle using Nat.le_induction with
  | base => exact Nat.le_refl _
  | succ n hle ih =>
    refine (ih (by omega) fun m hm hm' => hb m hm (by omega)).trans ?_
    rcases C.step_cases hn hk' with ⟨i, act, hs⟩ | hs
    · rw [hs.rounds]
    · rw [hs.rounds]
      by_cases hh : (M (n + 1)).block = l.header
      · have hin : l.contains (M n).block = true := by simpa [Loop.contains] using hb n hle (by omega)
        rw [hh, tally_header hl, if_pos hin]
        omega
      · rw [tally_of_ne (Ne.symm hh)]

end Frames

/-! ## The code of a block -/

/-- From the start of a block on, its code is executed. -/
theorem code (hk : k ≤ N) (hb : (M k).StartsAt f b) {n : Nat} (hle : n ≤ (f.bodyAt b).length) :
    k + n ≤ N ∧ (M (k + n)).block = b ∧ (M (k + n)).done = (f.phisAt b).length + n ∧ (M (k + n)).rounds = (M k).rounds := by
  induction n with
  | zero => exact ⟨hk, hb.1, hb.2, rfl⟩
  | succ n ih =>
    obtain ⟨hN, hblock, hdone, hrounds⟩ := ih (by omega)
    have hi : f.instrAt? (M (k + n)).block (M (k + n)).done = some (f.bodyAt b)[n] := by
      rw [hblock, hdone, instrAt?_body]
      exact List.getElem?_eq_getElem hle
    obtain ⟨hlt, act, h⟩ := C.executes hN hi
    refine ⟨hlt, h.block.trans hblock, ?_, h.rounds.trans hrounds⟩
    rw [← Nat.add_assoc, h.done, hdone, Nat.add_assoc]

theorem code_executes (hk : k ≤ N) (hb : (M k).StartsAt f b) {n : Nat} {i : Instr} (hi : (f.bodyAt b)[n]? = some i) :
    k + n < N ∧ ∃ act, (M (k + n)).Executes f (M (k + n + 1)) i act := by
  obtain ⟨hlt, -⟩ := List.getElem?_eq_some_iff.mp hi
  obtain ⟨hN, hblock, hdone, -⟩ := C.code hk hb hlt.le
  refine C.executes hN ?_
  rw [hblock, hdone, instrAt?_body, hi]

theorem code_ends (hk : k ≤ N) (hb : (M k).StartsAt f b) :
    k + (f.bodyAt b).length ≤ N ∧ (M (k + (f.bodyAt b).length)).EndsAt f b ∧
      (M (k + (f.bodyAt b).length)).rounds = (M k).rounds := by
  obtain ⟨hN, hblock, hdone, hrounds⟩ := C.code hk hb (Nat.le_refl _)
  refine ⟨hN, ⟨hblock, ?_⟩, hrounds⟩
  rw [hdone, instrAt?_body]
  exact List.getElem?_eq_none (Nat.le_refl _)

/-- The code of a block leaves alone what the block does not define. -/
theorem env_code (hn : f.defined.Nodup) (hk : k ≤ N) (hb : (M k).StartsAt f b) {n : Nat} (hle : n ≤ (f.bodyAt b).length)
    (hv : v ∉ f.destsAt b) : (M (k + n)).machine.env.get? v = (M k).machine.env.get? v := by
  refine C.env_frame hn (Nat.le_add_right _ _) (C.code hk hb hle).1 fun m hkm hmn => ?_
  obtain ⟨j, rfl⟩ := Nat.exists_eq_add_of_le hkm.le
  rw [(C.code hk hb (show j ≤ _ by omega)).2.1]
  exact hv

theorem code_steps (hk : k ≤ N) (hb : (M k).StartsAt f b) {n : Nat} (hle : n ≤ (f.bodyAt b).length) :
    (M (k + n)).machine.steps = (M k).machine.steps + n := by
  induction n with
  | zero => rfl
  | succ n ih =>
    obtain ⟨-, act, h⟩ := C.code_executes hk hb (List.getElem?_eq_getElem hle)
    rw [← Nat.add_assoc, h.steps, ih (by omega), Nat.add_assoc]

section Computed

variable (hf : f.Valid) {n : Nat} {i : Instr} (hi : f.instrAt? b n = some i) (hb : f.Live b) (hphi : i.isPhi = false)
  (hd : i.dest? = some v)

include hf hi hb hphi hd

/-- The operands of an instruction are defined before its result, so they are not bound again while the result is available. -/
theorem read_operand_step (hk : k < N) (hv : f.AvailableBefore (M (k + 1)).block (M (k + 1)).done v) {o : Operand}
    (ho : o ∈ i.operands) : (M (k + 1)).machine.read o = (M k).machine.read o := by
  have hdef : f.DefinedAt v b n := ⟨i, hi, hd⟩
  have hstep := Moment.step_of_next hf.once (C.next hk)
  cases o with
  | lit _ => rfl
  | var w =>
    have hw := readable_operand hf hi hphi hb ho w rfl
    have hold : w ∉ (M (k + 1)).fresh := by
      intro hwf
      obtain ⟨m, -, hwd⟩ := hstep.definedAt_of_fresh hwf
      rcases availableBefore_iff.mp hw with hparam | ⟨d, m', hwd', hlt⟩
      · exact not_mem_params hf.once hwd.mem_destsAt hparam
      · obtain ⟨rfl, rfl⟩ := hwd.unique hf.once hwd'
        by_cases hvf : v ∈ (M (k + 1)).fresh
        · obtain ⟨-, -, -, hfresh, -⟩ := hstep.executes hf.once hi hd hphi hvf
          rw [hfresh, List.mem_singleton] at hwf
          subst hwf
          obtain ⟨rfl, rfl⟩ := hwd.unique hf.once hdef
          exact hlt.irrefl
        · exact (hlt.trans (hstep.earlier hf.once hv hvf hwf hdef hwd) (C.live hf.once hk)).irrefl
    simp only [Machine.read, hstep.env hold]

/-- **What is available was computed.** The instruction of a value was executed, from what its operands still hold, and gave
what the value holds. -/
theorem exists_computation (hk : k ≤ N) (hv : f.AvailableBefore (M k).block (M k).done v) :
    ∃ j act, j < k ∧ (M j).Executes f (M (j + 1)) i act ∧
      (M k).machine.env.get? v = (M (j + 1)).machine.env.get? v ∧
      ∀ o ∈ i.operands, (M k).machine.read o = (M j).machine.read o := by
  have hdef : f.DefinedAt v b n := ⟨i, hi, hd⟩
  induction k with
  | zero =>
    have hstart := C.start (C.moment 0 (Nat.zero_le _))
    rw [hstart] at hv
    rcases availableBefore_iff.mp hv with hparam | ⟨d, m, hdef', hlt⟩
    · exact absurd hparam (not_mem_params hf.once hdef.mem_destsAt)
    · obtain ⟨rfl, rfl⟩ := hdef.unique hf.once hdef'
      rcases hlt with hdom | ⟨rfl, hlt⟩
      · exact absurd (eq_entry_of_dominates hdom.2) hdom.1
      · rw [isPhi_of_lt_phis hi hlt] at hphi
        cases hphi
  | succ k ih =>
    have hstep := Moment.step_of_next hf.once (C.next hk)
    have hread : ∀ o ∈ i.operands, (M (k + 1)).machine.read o = (M k).machine.read o := fun o ho =>
      C.read_operand_step hf hi hb hphi hd hk hv ho
    by_cases hvf : v ∈ (M (k + 1)).fresh
    · obtain ⟨rfl, rfl, -⟩ := hstep.executes hf.once hi hd hphi hvf
      obtain ⟨-, act, hexec⟩ := C.executes (by omega) hi
      exact ⟨k, act, Nat.lt_succ_self k, hexec, rfl, hread⟩
    · obtain ⟨j, act, hj, hexec, hvalue, hsame⟩ := ih (by omega) (hstep.available hv hvf)
      exact ⟨j, act, by omega, hexec, (hstep.env hvf).trans hvalue, fun o ho => (hread o ho).trans (hsame o ho)⟩

end Computed

/-- The result of a binary operation is what the operation gives on what its operands hold now. -/
theorem coherent (hf : f.Valid) {n : Nat} {i : Instr} {op : BinOp} {x y : Operand} (hi : f.instrAt? b n = some i)
    (hb : f.Live b) (hop : i.op = .binary op v x y) (hk : k ≤ N) (hv : f.AvailableBefore (M k).block (M k).done v) :
    ∃ z, (M k).machine.binary op x y = .ok z ∧ (M k).machine.env.get? v = some z := by
  have hoperands : i.operands = [x, y] := by rw [Instr.operands, hop]; rfl
  obtain ⟨j, act, -, hexec, hvalue, hread⟩ := C.exists_computation hf hi hb (by rw [Instr.isPhi, hop]; rfl)
    (by rw [Instr.dest?, hop]; rfl) hk hv
  have hact := hexec.action
  rw [hop] at hact
  obtain ⟨z, hz, hact⟩ := bind_eq_ok hact
  cases hact
  refine ⟨z, ?_, hvalue.trans hexec.get?_bind⟩
  rw [← hz]
  exact Machine.binary_congr (hread x (by simp [hoperands])) (hread y (by simp [hoperands]))

end Completes

/-! ## Returning from a block on -/

/-- A machine runs a block and enters another. -/
structure Hops (g : Func) (limit : Nat) (m : Machine) (b : BlockId) (m' : Machine) (c : BlockId) : Prop where
  block : ∃ blk m₁, g.block? b = some blk ∧ m.runInstrs limit blk.body = .ok m₁ ∧ m₁.steps < limit ∧
    m₁.transfer b blk.term = .ok (.goto c) ∧ { m₁ with steps := m₁.steps + 1 }.enter g limit b c = .ok m'

/-- From the start of a block on, a function returns data. -/
inductive Returns (g : Func) (limit : Nat) (values : List Datum) : Machine → BlockId → Prop
  | finish {m m₁ : Machine} {b : BlockId} {blk : Block} : g.block? b = some blk → m.runInstrs limit blk.body = .ok m₁ →
      m₁.steps < limit → m₁.transfer b blk.term = .ok (.finish values) → Returns g limit values m b
  | hop {m m' : Machine} {b c : BlockId} : g.Hops limit m b m' c → Returns g limit values m' c → Returns g limit values m b

namespace Returns

variable {g : Func} {values : List Datum} {m : Machine}

theorem runBlocks (h : g.Returns limit values m b) :
    ∃ fuel, ∀ fuel' ≥ fuel, ∀ visited, ∃ r, SsaFusion.runBlocks g limit fuel' m b visited = .ok r ∧ r.values = values := by
  have hsame : ∀ (m : Machine) (b : BlockId) (t : Terminator),
      { m with steps := m.steps + 1 }.transfer b t = m.transfer b t := fun m b t => Machine.transfer_of_env (by rfl) b t
  induction h with
  | @finish m m₁ b blk hblk hrun hlt htrans =>
    refine ⟨1, fun fuel' hle visited => ?_⟩
    obtain ⟨n, rfl⟩ := Nat.exists_eq_add_of_le' hle
    simp only [SsaFusion.runBlocks, hblk, hrun, ok_bind, Machine.tick, if_pos hlt, hsame, htrans]
    exact ⟨_, rfl, rfl⟩
  | hop h _ ih =>
    obtain ⟨blk, m₁, hblk, hrun, hlt, htrans, henter⟩ := h.block
    obtain ⟨fuel, ih⟩ := ih
    refine ⟨fuel + 1, fun fuel' hle visited => ?_⟩
    obtain ⟨n, rfl⟩ := Nat.exists_eq_add_of_le' (Nat.le_of_add_left_le hle)
    obtain ⟨r, hr, hvalues⟩ := ih n (by omega) (visited + 1)
    simp only [SsaFusion.runBlocks, hblk, hrun, ok_bind, Machine.tick, if_pos hlt, hsame, htrans, henter]
    exact ⟨r, hr, hvalues⟩

/-- A function that returns from its entry on returns. -/
theorem run (hlen : args.length = g.params.length) (h : g.Returns limit values (g.start args).machine g.entry) :
    ∃ r, g.run args limit = .ok r ∧ r.values = values := by
  obtain ⟨fuel, h⟩ := h.runBlocks
  obtain ⟨r, hr, hvalues⟩ := h (max fuel (limit + 1)) (Nat.le_max_left _ _) 1
  refine ⟨r, ?_, hvalues⟩
  rw [Func.run, if_pos hlen, ← hr]
  refine (runBlocks_fuel g.entry 1 ?_ (Nat.le_max_right _ _) (Nat.zero_le _)).symm
  exact Nat.lt_add_left _ (Nat.lt_succ_self limit)

end Returns

end Func

end SsaFusion
