import SsaFusion.Proofs.Flow.Nest
import SsaFusion.Proofs.Machine.Frame

/-!
# The moments of a run

A run seen from close up: `next` takes one instruction, or one edge with the phis behind it, and counts for every header
how often control has come back to it. These moments are those of the run (`endsIn_run`). A step changes the values that
it computes and, when it enters a header, the count of that header (`Step`); whatever is available afterwards and was not
computed just now was available before (`Step.available`), and was defined earlier than what was (`Step.earlier`).
-/

namespace SsaFusion

/-- How far a run has got. -/
structure Moment where
  machine : Machine
  block : BlockId
  /-- The number of instructions of the block that are done, its phis included. -/
  done : Nat
  /-- Blocks entered, the entry block included. -/
  visited : Nat := 1
  /-- How often control has come back to a header from inside its loop since it last came from outside. -/
  rounds : BlockId → Nat := fun _ => 0
  /-- The values that were computed just now. -/
  fresh : List ValueId

namespace Func

variable (f : Func)

/-- The counts of rounds after an edge. -/
def tally (rounds : BlockId → Nat) (a b : BlockId) : BlockId → Nat :=
  match f.loops.find? (·.header == b) with
  | some l => fun h => if h = b then (if l.contains a then rounds b + 1 else 0) else rounds h
  | none => rounds

/-- The moment in front of the entry block. -/
def start (args : List Word) : Moment where
  machine := { env := Table.ofList (f.params.zip (args.map .int)) }
  block := f.entry
  done := (f.phisAt f.entry).length
  fresh := f.params

end Func

/-- The next moment of a run, or what the run reports. -/
def Moment.next (f : Func) (limit : Nat) (M : Moment) : Except Fault (Moment ⊕ RunResult) :=
  match f.block? M.block with
  | none => .error (.missingBlock M.block)
  | some b =>
    match b.instrs[M.done]? with
    | some i => do
      let m ← M.machine.tick limit
      let m ← m.execute i.op
      .ok (.inl { M with machine := m, done := M.done + 1, fresh := i.dest?.toList })
    | none => do
      let m ← M.machine.tick limit
      match ← m.transfer M.block b.term with
      | .finish values => .ok (.inr { values, steps := m.steps, visited := M.visited })
      | .goto target =>
        let m ← m.enter f limit M.block target
        .ok (.inl {
          machine := m
          block := target
          done := (f.phisAt target).length
          visited := M.visited + 1
          rounds := f.tally M.rounds M.block target
          fresh := (f.phisAt target).filterMap Instr.dest? })

/-- The moment of a run after a number of steps, if the run gets that far. -/
def Func.moment? (f : Func) (args : List Word) (limit : Nat) : Nat → Option Moment
  | 0 => if args.length = f.params.length then some (f.start args) else none
  | k + 1 =>
    match (f.moment? args limit k).map (Moment.next f limit) with
    | some (.ok (.inl M)) => some M
    | _ => none

namespace Func

variable {f : Func} {args : List Word} {limit k : Nat} {M M' : Moment}

theorem tally_of_ne {rounds : BlockId → Nat} {a b h : BlockId} (hne : h ≠ b) : f.tally rounds a b h = rounds h := by
  unfold tally
  cases f.loops.find? (·.header == b) with
  | none => rfl
  | some l => exact if_neg hne

theorem tally_header {rounds : BlockId → Nat} {a : BlockId} {l : Loop} (hl : l ∈ f.loops) :
    f.tally rounds a l.header l.header = if l.contains a then rounds l.header + 1 else 0 := by
  unfold tally
  cases hfind : f.loops.find? (·.header == l.header) with
  | none => exact absurd (List.find?_eq_none.mp hfind l hl) (by simp)
  | some k =>
    have hk : k.header = l.header := by simpa using List.find?_some hfind
    obtain rfl := eq_of_header_eq (List.mem_of_find?_eq_some hfind) hl hk
    exact if_pos rfl

theorem moment?_succ : f.moment? args limit (k + 1) = some M' ↔
    ∃ M, f.moment? args limit k = some M ∧ M.next f limit = .ok (.inl M') := by
  rw [moment?]
  cases f.moment? args limit k with
  | none => simp
  | some M =>
    simp only [Option.map_some, Option.some.injEq, exists_eq_left']
    split
    · rename_i heq
      simp [Option.some.inj heq]
    · rename_i hne
      simp only [reduceCtorEq, false_iff]
      exact fun h => hne M' (congrArg some h)

/-- What holds at first and is kept by every step holds at every moment. -/
theorem moment?_induction {P : Moment → Prop} (hstart : P (f.start args))
    (hstep : ∀ k M M', f.moment? args limit k = some M → M.next f limit = .ok (.inl M') → P M → P M')
    (h : f.moment? args limit k = some M) : P M := by
  induction k generalizing M with
  | zero =>
    rw [moment?] at h
    split at h
    · cases h
      exact hstart
    · cases h
  | succ k ih =>
    obtain ⟨M₀, h₀, hnext⟩ := moment?_succ.mp h
    exact hstep k M₀ M h₀ hnext (ih h₀)

/-! ## The moments are those of the run -/

section Adequacy

theorem length_args_of_moment? (h : f.moment? args limit k = some M) : args.length = f.params.length := by
  induction k generalizing M with
  | zero =>
    by_contra ha
    rw [moment?, if_neg ha] at h
    cases h
  | succ k ih =>
    obtain ⟨M₀, h₀, _⟩ := moment?_succ.mp h
    exact ih h₀

/-- The moments of a run end in an outcome. -/
def EndsIn (f : Func) (args : List Word) (limit : Nat) (outcome : Except Fault RunResult) : Prop :=
  ∃ k M, f.moment? args limit k = some M ∧ M.next f limit = outcome.map .inr

theorem getElem?_of_drop {is later : List Instr} {n : Nat} {i : Instr} (h : is.drop n = i :: later) :
    is[n]? = some i ∧ is.drop (n + 1) = later := by
  rw [← List.head?_drop, h, ← List.tail_drop, h]
  exact ⟨rfl, rfl⟩

/-- The rest of a block, and what a run does behind it. -/
theorem endsIn_of_runInstrs {blk : Block} (hblk : f.block? M.block = some blk) {is : List Instr}
    (his : blk.instrs.drop M.done = is) (h : f.moment? args limit k = some M)
    {rest : Machine → Except Fault RunResult}
    (hrest : ∀ k' M', f.moment? args limit k' = some M' → M'.block = M.block → M'.visited = M.visited →
      blk.instrs[M'.done]? = none → M.machine.steps ≤ M'.machine.steps → f.EndsIn args limit (rest M'.machine)) :
    f.EndsIn args limit (M.machine.runInstrs limit is >>= rest) := by
  induction is generalizing M k with
  | nil =>
    exact hrest k M h rfl rfl (List.getElem?_eq_none (List.drop_eq_nil_iff.mp his)) (Nat.le_refl _)
  | cons i later ih =>
    obtain ⟨hi, hlater⟩ := getElem?_of_drop his
    rw [Machine.runInstrs]
    cases htick : M.machine.tick limit with
    | error e => exact ⟨k, M, h, by simp only [Moment.next, hblk, hi, htick]; rfl⟩
    | ok m₁ =>
      rw [ok_bind]
      cases hexec : m₁.execute i.op with
      | error e => exact ⟨k, M, h, by simp only [Moment.next, hblk, hi, htick, hexec, ok_bind]; rfl⟩
      | ok m₂ =>
        rw [ok_bind]
        have hsteps : m₂.steps = M.machine.steps + 1 := by
          rw [(Machine.execute_frame hexec).1, (Machine.tick_eq_ok.mp htick).2]
        refine ih (M := { M with machine := m₂, done := M.done + 1, fresh := i.dest?.toList }) hblk hlater
          (moment?_succ.mpr ⟨M, h, ?_⟩) fun k' M' h' hb hv hd hle => ?_
        · simp only [Moment.next, hblk, hi, htick, hexec, ok_bind]
        · simp only [hsteps] at hle
          exact hrest k' M' h' hb hv hd (by omega)

/-- A run from the start of a block on, with fuel for every step that the budget allows. -/
theorem endsIn_of_runBlocks (h : f.moment? args limit k = some M) (hdone : M.done = (f.phisAt M.block).length)
    {fuel : Nat} (hfuel : limit < M.machine.steps + fuel) (hsteps : M.machine.steps ≤ limit) :
    f.EndsIn args limit (runBlocks f limit fuel M.machine M.block M.visited) := by
  induction fuel generalizing M k with
  | zero => omega
  | succ fuel ih =>
    unfold runBlocks
    cases hblk : f.block? M.block with
    | none => exact ⟨k, M, h, by simp only [Moment.next, hblk]; rfl⟩
    | some blk =>
      have hbody : blk.instrs.drop M.done = blk.body := by
        rw [hdone, phisAt, hblk, Option.map_some, Option.getD_some, ← blk.phis_append_body, List.drop_left]
      refine endsIn_of_runInstrs hblk hbody h fun k₁ M₁ h₁ hb₁ hv₁ hd₁ hle => ?_
      rw [← hb₁, ← hv₁]
      rw [← hb₁] at hblk
      cases htick : M₁.machine.tick limit with
      | error e => exact ⟨k₁, M₁, h₁, by simp only [Moment.next, hblk, hd₁, htick]; rfl⟩
      | ok m₂ =>
        rw [ok_bind]
        obtain ⟨hlt, hm₂⟩ := Machine.tick_eq_ok.mp htick
        cases htrans : m₂.transfer M₁.block blk.term with
        | error e => exact ⟨k₁, M₁, h₁, by simp only [Moment.next, hblk, hd₁, htick, htrans, ok_bind]; rfl⟩
        | ok result =>
          rw [ok_bind]
          cases result with
          | finish values => exact ⟨k₁, M₁, h₁, by simp only [Moment.next, hblk, hd₁, htick, htrans, ok_bind]; rfl⟩
          | goto target =>
            simp only
            cases henter : m₂.enter f limit M₁.block target with
            | error e =>
              exact ⟨k₁, M₁, h₁, by simp only [Moment.next, hblk, hd₁, htick, htrans, henter, ok_bind]; rfl⟩
            | ok m₃ =>
              rw [ok_bind]
              obtain ⟨hsteps₃, hle₃⟩ := Machine.steps_enter (by rw [hm₂]; exact hlt) henter
              rw [hm₂] at hsteps₃
              refine ih (M := ⟨m₃, target, (f.phisAt target).length, M₁.visited + 1, f.tally M₁.rounds M₁.block target,
                (f.phisAt target).filterMap Instr.dest?⟩) (moment?_succ.mpr ⟨M₁, h₁, ?_⟩) rfl ?_ hle₃
              · simp only [Moment.next, hblk, hd₁, htick, htrans, henter, ok_bind]
              · simp only at hsteps₃ ⊢
                omega

/-- **The moments are those of the run.** The last one ends in what the run gives, be it a result or a fault. -/
theorem endsIn_run (h : f.moment? args limit k = some M) : f.EndsIn args limit (f.run args limit) := by
  have ha := length_args_of_moment? h
  rw [run, if_pos ha]
  exact endsIn_of_runBlocks (M := f.start args) (k := 0) (if_pos ha) rfl (by simp [start]) (Nat.zero_le _)

end Adequacy

/-! ## Points -/

/-- An instruction at a point defines a value. -/
def DefinedAt (f : Func) (v : ValueId) (b : BlockId) (n : Nat) : Prop := ∃ i, f.instrAt? b n = some i ∧ i.dest? = some v

/-- A value is defined on every path to a point. -/
def AvailableBefore (f : Func) (b : BlockId) (n : Nat) (v : ValueId) : Prop :=
  f.AvailableIn b v ∨ ∃ m < n, f.DefinedAt v b m

/-- A point lies on every path to another. -/
def Earlier (f : Func) (p q : BlockId × Nat) : Prop := f.StrictlyDominates p.1 q.1 ∨ p.1 = q.1 ∧ p.2 < q.2

section Points

variable {v y : ValueId} {b d : BlockId} {n m : Nat}

theorem DefinedAt.mem_destsAt (h : f.DefinedAt v b n) : v ∈ f.destsAt b := mem_destsAt_iff_index.mpr ⟨n, h⟩

theorem DefinedAt.mem_dests (h : f.DefinedAt v b n) : v ∈ f.dests := Func.mem_dests.mpr ⟨b, h.mem_destsAt⟩

theorem DefinedAt.live (h : f.DefinedAt v b n) (hall : ∀ b, b < f.blocks.length → f.Live b) : f.Live b := by
  obtain ⟨i, hi, _⟩ := h
  refine hall b ?_
  by_contra hge
  have hnone : f.block? b = none := List.getElem?_eq_none (Nat.le_of_not_lt hge)
  simp [instrAt?, instrsOf, hnone] at hi

theorem availableBefore_iff :
    f.AvailableBefore b n v ↔ v ∈ f.params ∨ ∃ d m, f.DefinedAt v d m ∧ f.Earlier (d, m) (b, n) := by
  constructor
  · rintro ((h | ⟨d, hd, hv⟩) | ⟨m, hm, hv⟩)
    · exact Or.inl h
    · obtain ⟨m, hm⟩ := mem_destsAt_iff_index.mp hv
      exact Or.inr ⟨d, m, hm, Or.inl hd⟩
    · exact Or.inr ⟨b, m, hv, Or.inr ⟨rfl, hm⟩⟩
  · rintro (h | ⟨d, m, hv, hd | ⟨rfl, hm⟩⟩)
    · exact Or.inl (Or.inl h)
    · exact Or.inl (Or.inr ⟨d, hd, hv.mem_destsAt⟩)
    · exact Or.inr ⟨m, hm, hv⟩

/-- Behind the last instruction of a block, what is available is what is available at its end. -/
theorem availableBefore_end (hn : f.instrAt? b n = none) : f.AvailableBefore b n v ↔ f.AvailableOut b v := by
  rw [availableOut_iff, AvailableBefore, mem_destsAt_iff_index]
  refine or_congr_right ⟨fun ⟨m, _, h⟩ => ⟨m, h⟩, fun ⟨m, h⟩ => ⟨m, ?_, h⟩⟩
  obtain ⟨i, hi, _⟩ := h
  have hm := (List.getElem?_eq_some_iff.mp hi).1
  exact Nat.lt_of_lt_of_le hm (List.getElem?_eq_none_iff.mp hn)

/-- An instruction that is no phi reads what is available in front of it. -/
theorem readable_operand (hf : f.Valid) {i : Instr} (hi : f.instrAt? b n = some i) (hphi : i.isPhi = false)
    (hb : f.Live b) {o : Operand} (ho : o ∈ i.operands) : Machine.Readable (f.AvailableBefore b n) o := by
  intro w hw
  have hread : w ∈ i.reads := List.mem_filterMap.mpr ⟨o, ho, hw⟩
  exact ReadsOk.iff_index.mp (hf.reads b hb) n i hi hphi w hread

theorem Earlier.trans {p q r : BlockId × Nat} (h : f.Earlier p q) (h' : f.Earlier q r) (hr : f.Live r.1) :
    f.Earlier p r := by
  rcases h with ⟨hne, hpq⟩ | ⟨e, hlt⟩ <;> rcases h' with ⟨hne', hqr⟩ | ⟨e', hlt'⟩
  · refine Or.inl ⟨fun e => ?_, hpq.trans hqr⟩
    exact hne' (hqr.antisymm (e ▸ hpq) (hqr.live hr))
  · exact Or.inl (e' ▸ ⟨hne, hpq⟩)
  · exact Or.inl (e ▸ ⟨hne', hqr⟩)
  · exact Or.inr ⟨e.trans e', by omega⟩

theorem Earlier.irrefl {p : BlockId × Nat} (h : f.Earlier p p) : False := by
  rcases h with h | ⟨_, h⟩
  · exact h.1 rfl
  · omega

theorem DefinedAt.unique (hn : f.defined.Nodup) (h : f.DefinedAt v b n) (h' : f.DefinedAt v d m) : b = d ∧ n = m := by
  obtain rfl : b = d := destsAt_unique hn h.mem_destsAt h'.mem_destsAt
  obtain ⟨i, hi, hv⟩ := h
  obtain ⟨j, hj, hv'⟩ := h'
  exact ⟨rfl, instrAt?_unique hn hi hj hv hv'⟩

theorem mem_fresh_phis : v ∈ (f.phisAt b).filterMap Instr.dest? ↔ ∃ n < (f.phisAt b).length, f.DefinedAt v b n := by
  have hget : ∀ n, n < (f.phisAt b).length → f.instrAt? b n = (f.phisAt b)[n]? := by
    intro n hn
    rw [instrAt?, ← phisAt_append_bodyAt, List.getElem?_append_left hn]
  rw [List.mem_filterMap]
  constructor
  · rintro ⟨i, hi, hv⟩
    obtain ⟨n, hn, hi⟩ := List.mem_iff_getElem.mp hi
    exact ⟨n, hn, i, by rw [hget n hn, List.getElem?_eq_getElem hn, hi], hv⟩
  · rintro ⟨n, hn, i, hi, hv⟩
    rw [hget n hn] at hi
    exact ⟨i, List.mem_of_getElem? hi, hv⟩

end Points

/-! ## Steps -/

end Func

/-- What one step does: it executes an instruction, or it takes an edge and binds the phis behind it. -/
inductive Moment.Step (f : Func) (M M' : Moment) : Prop
  | instr {i : Instr} {m : Machine} (instr : f.instrAt? M.block M.done = some i) (before : m.env = M.machine.env)
      (execute : m.execute i.op = .ok M'.machine) (block : M'.block = M.block) (done : M'.done = M.done + 1)
      (rounds : M'.rounds = M.rounds) (fresh : M'.fresh = i.dest?.toList)
  | edge (last : f.instrAt? M.block M.done = none) (edge : M'.block ∈ f.successors M.block)
      (done : M'.done = (f.phisAt M'.block).length) (rounds : M'.rounds = f.tally M.rounds M.block M'.block)
      (fresh : M'.fresh = (f.phisAt M'.block).filterMap Instr.dest?)
      (frame : ∀ v, v ∉ M'.fresh → M'.machine.env.get? v = M.machine.env.get? v)
      (bound : ∀ i ∈ f.phisAt M'.block, ∀ d sources, i.op = .phi d sources → ∃ s x,
        sources.find? (·.1 == M.block) = some s ∧ M.machine.read s.2 = .ok x ∧ M'.machine.env.get? d = some x)

namespace Moment

variable {f : Func} {limit : Nat} {M M' : Moment} {v : ValueId}

theorem step_of_next (hn : f.defined.Nodup) (h : M.next f limit = .ok (.inl M')) : M.Step f M' := by
  unfold next at h
  split at h
  · cases h
  · rename_i blk hblk
    have hinstrs := Func.instrsOf_eq hblk
    have hterm := f.term?_eq hblk
    split at h
    · rename_i i hi
      obtain ⟨m₁, htick, h⟩ := bind_eq_ok h
      obtain ⟨m₂, hexec, h⟩ := bind_eq_ok h
      cases h
      refine .instr (by rw [Func.instrAt?, hinstrs, hi]) ?_ hexec rfl rfl rfl rfl
      rw [(Machine.tick_eq_ok.mp htick).2]
    · rename_i hnone
      obtain ⟨m₁, htick, h⟩ := bind_eq_ok h
      have henv : m₁.env = M.machine.env := by rw [(Machine.tick_eq_ok.mp htick).2]
      obtain ⟨result, htrans, h⟩ := bind_eq_ok h
      cases result with
      | finish values => cases h
      | goto target =>
        obtain ⟨m₂, henter, h⟩ := bind_eq_ok h
        cases h
        obtain ⟨hframe, hbound⟩ := Machine.enter_frame (Func.nodup_phiDests hn target) henter
        refine .edge (by rw [Func.instrAt?, hinstrs, hnone]) (Machine.transfer_mem hterm htrans) rfl rfl rfl ?_ ?_
        · intro v hv
          rw [hframe v hv, henv]
        · intro i hi d sources hop
          obtain ⟨s, x, hfind, hread, hget⟩ := hbound i hi d sources hop
          exact ⟨s, x, hfind, Machine.read_of_env henv s.2 ▸ hread, hget⟩

namespace Step

variable (h : M.Step f M')

include h

/-- A step binds what it computes and nothing else. -/
theorem env (hv : v ∉ M'.fresh) : M'.machine.env.get? v = M.machine.env.get? v := by
  cases h with
  | instr _ before execute _ _ _ fresh =>
    have hv : _ ≠ some v := fun hd => hv (by rw [fresh]; simpa using hd)
    rw [(Machine.execute_frame execute).2.1 v hv, before]
  | edge _ _ _ _ _ frame _ => exact frame v hv

/-- What was computed just now is defined in the block, in front of the point that the run has got to. -/
theorem definedAt_of_fresh (hv : v ∈ M'.fresh) : ∃ n < M'.done, f.DefinedAt v M'.block n := by
  cases h with
  | instr hi _ _ hb hd _ hfresh =>
    exact ⟨M.done, by omega, _, hb ▸ hi, by simpa [hfresh] using hv⟩
  | edge _ _ hd _ hfresh _ _ =>
    rw [hd]
    exact Func.mem_fresh_phis.mp (hfresh ▸ hv)

/-- A value that is no phi is computed by executing the instruction that defines it. -/
theorem executes (hn : f.defined.Nodup) {b : BlockId} {n : Nat} {i : Instr} (hi : f.instrAt? b n = some i)
    (hd : i.dest? = some v) (hphi : i.isPhi = false) (hv : v ∈ M'.fresh) :
    M.block = b ∧ M.done = n ∧ M'.rounds = M.rounds ∧ M'.fresh = [v] ∧
      ∃ m : Machine, m.env = M.machine.env ∧ m.execute i.op = .ok M'.machine := by
  have hdef : f.DefinedAt v b n := ⟨i, hi, hd⟩
  cases h with
  | edge _ _ _ _ hfresh _ _ =>
    obtain ⟨m, hm, hdef'⟩ := Func.mem_fresh_phis.mp (hfresh ▸ hv)
    obtain ⟨rfl, rfl⟩ := hdef.unique hn hdef'
    simp [Func.isPhi_of_lt_phis hi hm] at hphi
  | @instr j m hj henv hexec _ _ hrounds hfresh =>
    have hjd : j.dest? = some v := by simpa [hfresh] using hv
    obtain ⟨hMb, hMn⟩ : M.block = b ∧ M.done = n := Func.DefinedAt.unique hn ⟨j, hj, hjd⟩ hdef
    have hij : j = i := by
      rw [hMb, hMn, hi] at hj
      exact (Option.some.inj hj).symm
    exact ⟨hMb, hMn, hrounds, by rw [hfresh, hjd, Option.toList_some], m, henv, hij ▸ hexec⟩

/-- What is available and was not computed just now was available before. -/
theorem available (hv : f.AvailableBefore M'.block M'.done v) (hold : v ∉ M'.fresh) :
    f.AvailableBefore M.block M.done v := by
  cases h with
  | instr hi _ _ hb hd _ hfresh =>
    rw [hb, hd] at hv
    refine hv.imp_right fun ⟨m, hm, hdef⟩ => ⟨m, ?_, hdef⟩
    refine Nat.lt_of_le_of_ne (Nat.le_of_lt_succ hm) ?_
    rintro rfl
    obtain ⟨j, hj, hdest⟩ := hdef
    cases hi.symm.trans hj
    exact hold (by rw [hfresh, hdest]; simp)
  | edge hlast hedge hd _ hfresh _ _ =>
    rw [Func.availableBefore_end hlast]
    rcases hv with (hv | ⟨d, hdom, hv⟩) | ⟨m, hm, hdef⟩
    · exact Or.inl hv
    · exact Or.inr ⟨d, hdom.2.of_step hdom.1 hedge, hv⟩
    · refine absurd ?_ hold
      rw [hfresh]
      exact Func.mem_fresh_phis.mpr ⟨m, hd ▸ hm, hdef⟩

/-- What is available and was not computed just now was defined earlier than what was. -/
theorem earlier (hn : f.defined.Nodup) (hv : f.AvailableBefore M'.block M'.done v) (hold : v ∉ M'.fresh) {y : ValueId}
    (hy : y ∈ M'.fresh) {b d : BlockId} {n k : Nat} (hvd : f.DefinedAt v b n) (hyd : f.DefinedAt y d k) :
    f.Earlier (b, n) (d, k) := by
  have hbefore := h.available hv hold
  rw [Func.availableBefore_iff] at hbefore hv
  have hparam : v ∉ f.params := Func.not_mem_params hn hvd.mem_destsAt
  cases h with
  | instr hi _ _ _ _ _ hfresh =>
    obtain ⟨b', n', hvd', hlt⟩ := hbefore.resolve_left hparam
    obtain ⟨rfl, rfl⟩ := hvd.unique hn hvd'
    have hy : f.DefinedAt y M.block M.done := ⟨_, hi, by simpa [hfresh] using hy⟩
    obtain ⟨rfl, rfl⟩ := hyd.unique hn hy
    exact hlt
  | edge _ _ hd _ hfresh _ _ =>
    rw [hfresh] at hy hold
    obtain ⟨k', _, hyd'⟩ := Func.mem_fresh_phis.mp hy
    obtain ⟨rfl, rfl⟩ := hyd.unique hn hyd'
    obtain ⟨b', n', hvd', hlt⟩ := hv.resolve_left hparam
    obtain ⟨rfl, rfl⟩ := hvd.unique hn hvd'
    rcases hlt with hlt | ⟨e, hlt⟩
    · exact Or.inl hlt
    · simp only at e
      subst e
      exact absurd (Func.mem_fresh_phis.mpr ⟨n, hd ▸ hlt, hvd⟩) hold

/-- Only the header that control gets to has its rounds counted anew. -/
theorem rounds {t : BlockId} (ht : M'.rounds t ≠ M.rounds t) :
    t = M'.block ∧ M'.done = (f.phisAt M'.block).length ∧ M'.fresh = (f.phisAt M'.block).filterMap Instr.dest? := by
  cases h with
  | instr _ _ _ _ _ hr _ => exact absurd (congrFun hr t) ht
  | edge _ _ hd hr hfresh _ _ =>
    refine ⟨?_, hd, hfresh⟩
    by_contra hne
    exact ht (by rw [hr, Func.tally_of_ne hne])

end Step

end Moment

namespace Func

variable {f : Func} {args : List Word} {limit k : Nat} {M M' : Moment}

/-- A run stays in live blocks, behind their phis. -/
theorem live_moment (hn : f.defined.Nodup) (h : f.moment? args limit k = some M) :
    f.Live M.block ∧ (f.phisAt M.block).length ≤ M.done := by
  refine moment?_induction (P := fun M => f.Live M.block ∧ (f.phisAt M.block).length ≤ M.done)
    ⟨live_entry, Nat.le_refl _⟩ ?_ h
  rintro _ M M' - hnext ⟨hlive, hle⟩
  cases Moment.step_of_next hn hnext with
  | instr _ _ _ hb hd _ _ => exact ⟨hb ▸ hlive, by rw [hb, hd]; omega⟩
  | edge _ hedge hd _ _ _ _ => exact ⟨hlive.step hedge, Nat.le_of_eq hd.symm⟩

theorem availableBefore_of_fresh (hn : f.defined.Nodup) (h : f.moment? args limit k = some M) {v : ValueId}
    (hv : v ∈ M.fresh) : f.AvailableBefore M.block M.done v := by
  cases k with
  | zero =>
    rw [moment?] at h
    split at h
    · cases h
      exact Or.inl (Or.inl hv)
    · cases h
  | succ k =>
    obtain ⟨M₀, _, hnext⟩ := moment?_succ.mp h
    obtain ⟨n, hlt, hdef⟩ := (Moment.step_of_next hn hnext).definedAt_of_fresh hv
    exact Or.inr ⟨n, hlt, hdef⟩

end Func

end SsaFusion
