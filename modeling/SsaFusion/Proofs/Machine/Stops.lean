import SsaFusion.Proofs.Machine.Moments

/-!
# Where a run stops

A run that ends in a fault, other than for want of budget, ends at a terminator or at one instruction, its culprit
(`culprit?`): the instruction that is due, or the first phi of the next block that cannot read its operand. A run has one last
moment (`last_unique`), so it stops where it is seen to stop (`StopsAt.run_eq`).
-/

namespace SsaFusion

namespace Machine

variable {m m' : Machine} {limit : Nat} {e : Fault} {a : BlockId} {i : Instr}

/-- Whether a phi can read its operand for the edge from a block. -/
def receives (m : Machine) (a : BlockId) (i : Instr) : Bool :=
  match i.sources?.bind (·.find? (·.1 == a)) with
  | some s => (m.read s.2).isOk
  | none => false

theorem receives_of_env (h : m'.env = m.env) : m'.receives a i = m.receives a i := by
  unfold receives
  split
  · rw [read_of_env h]
  · rfl

theorem receives_eq {sources : List (BlockId × Operand)} {s : BlockId × Operand} (hs : i.sources? = some sources)
    (hfind : sources.find? (·.1 == a) = some s) : m.receives a i = (m.read s.2).isOk := by
  simp only [receives, hs, Option.bind_some, hfind]

theorem tick_eq_error (h : m.tick limit = .error e) : e = .budgetExhausted limit := by
  unfold tick at h
  split at h <;> cases h
  rfl

theorem transfer_of_env (h : m'.env = m.env) (b : BlockId) (t : Terminator) : m'.transfer b t = m.transfer b t := by
  have hall : ∀ os, m'.readAll os = m.readAll os := by
    intro os
    induction os with
    | nil => rfl
    | cons o rest ih => rw [readAll, readAll, read_of_env h, ih]
  cases t with
  | jump | unreachable => rfl
  | branch c => simp only [transfer, readBool, read_of_env h]
  | ret vs => simp only [transfer, hall]

end Machine

/-! ## The culprit -/

/-- The instruction at which a run stops if it stops at a moment: the next one, or behind the last one the first phi that
cannot read its operand in the block that control goes to. -/
def Moment.culprit? (f : Func) (M : Moment) : Option Instr :=
  match f.instrAt? M.block M.done with
  | some i => some i
  | none =>
    match (f.term? M.block).map (M.machine.transfer M.block) with
    | some (.ok (.goto target)) => (f.phisAt target).find? (!M.machine.receives M.block ·)
    | _ => none

namespace Func

variable {f : Func} {args : List Word} {limit k k' : Nat} {M M' : Moment} {e : Fault}

/-- A run ends in a fault at an instruction with a property, or at a terminator. -/
def StopsAt (f : Func) (args : List Word) (limit : Nat) (e : Fault) (P : Instr → Prop) : Prop :=
  ∃ k M, f.moment? args limit k = some M ∧ M.next f limit = .error e ∧ ∀ i, M.culprit? f = some i → P i

/-- There is no moment behind the last one. -/
theorem le_of_last (hM : f.moment? args limit k = some M) (hlast : ∀ M₁, M.next f limit ≠ .ok (.inl M₁))
    (hM' : f.moment? args limit k' = some M') : k' ≤ k := by
  by_contra hlt
  obtain ⟨n, rfl⟩ := Nat.exists_eq_add_of_lt (Nat.lt_of_not_le hlt)
  clear hlt
  induction n generalizing M' with
  | zero =>
    obtain ⟨M₀, hM₀, hnext⟩ := moment?_succ.mp hM'
    cases hM.symm.trans hM₀
    exact hlast M' hnext
  | succ n ih =>
    obtain ⟨M₀, hM₀, -⟩ := moment?_succ.mp hM'
    exact ih hM₀

/-- A run has one last moment. -/
theorem last_unique (hM : f.moment? args limit k = some M) (hlast : ∀ M₁, M.next f limit ≠ .ok (.inl M₁))
    (hM' : f.moment? args limit k' = some M') (hlast' : ∀ M₁, M'.next f limit ≠ .ok (.inl M₁)) : k = k' ∧ M = M' := by
  obtain rfl := Nat.le_antisymm (le_of_last hM' hlast' hM) (le_of_last hM hlast hM')
  exact ⟨rfl, Option.some.inj (hM.symm.trans hM')⟩

theorem last_of_error (h : M.next f limit = .error e) : ∀ M₁, M.next f limit ≠ .ok (.inl M₁) := by
  intro M₁ h'
  cases h.symm.trans h'

/-- A run that stops in a fault ends in that fault. -/
theorem StopsAt.run_eq {P : Instr → Prop} (h : f.StopsAt args limit e P) : f.run args limit = .error e := by
  obtain ⟨k, M, hM, hnext, -⟩ := h
  obtain ⟨k', M', hM', hnext'⟩ := endsIn_run hM
  have hlast' : ∀ M₁, M'.next f limit ≠ .ok (.inl M₁) := by
    intro M₁ h
    rw [hnext'] at h
    cases hrun : f.run args limit <;> rw [hrun] at h <;> cases h
  obtain ⟨-, rfl⟩ := last_unique hM (last_of_error hnext) hM' hlast'
  rw [hnext] at hnext'
  cases hrun : f.run args limit with
  | error e' =>
    rw [hrun] at hnext'
    cases hnext'
    rfl
  | ok r =>
    rw [hrun] at hnext'
    cases hnext'

end Func

/-! ## The steps of a run -/

namespace Moment

variable {f : Func} {limit : Nat} {M M₁ : Moment} {e : Fault} {i : Instr} {blk : Block} {m m₁ : Machine} {target : BlockId}

/-- The moment at the start of a block that control goes to. -/
def arrive (f : Func) (M : Moment) (target : BlockId) (m : Machine) : Moment where
  machine := m
  block := target
  done := (f.phisAt target).length
  visited := M.visited + 1
  rounds := f.tally M.rounds M.block target
  fresh := (f.phisAt target).filterMap Instr.dest?

/-- The next moment behind an instruction. -/
theorem next_of_instr (hi : f.instrAt? M.block M.done = some i) :
    M.next f limit = M.machine.tick limit >>= fun m => m.execute i.op >>= fun m =>
      .ok (.inl { M with machine := m, done := M.done + 1, fresh := i.dest?.toList }) := by
  unfold next
  cases hblk : f.block? M.block with
  | none => simp [Func.instrAt?, Func.instrsOf, hblk] at hi
  | some blk =>
    rw [Func.instrAt?, Func.instrsOf_eq hblk] at hi
    simp only [hi]

section End

variable (hblk : f.block? M.block = some blk) (hi : f.instrAt? M.block M.done = none)

include hblk hi

theorem next_of_goto (htick : M.machine.tick limit = .ok m) (htrans : m.transfer M.block blk.term = .ok (.goto target)) :
    M.next f limit = m.enter f limit M.block target >>= fun m => .ok (.inl (M.arrive f target m)) := by
  rw [Func.instrAt?, Func.instrsOf_eq hblk] at hi
  simp only [next, hblk, hi, htick, htrans, ok_bind]
  rfl

theorem next_of_transfer_error (htick : M.machine.tick limit = .ok m) (htrans : m.transfer M.block blk.term = .error e) :
    M.next f limit = .error e := by
  rw [Func.instrAt?, Func.instrsOf_eq hblk] at hi
  simp only [next, hblk, hi, htick, htrans, ok_bind]
  rfl

/-- Behind the last instruction of a block, a run goes on at another block. -/
theorem goto_of_next (h : M.next f limit = .ok (.inl M₁)) : ∃ m m₁ target, M.machine.tick limit = .ok m ∧
    m.transfer M.block blk.term = .ok (.goto target) ∧ m.enter f limit M.block target = .ok m₁ ∧ M₁ = M.arrive f target m₁ := by
  rw [Func.instrAt?, Func.instrsOf_eq hblk] at hi
  simp only [next, hblk, hi] at h
  obtain ⟨m, htick, h⟩ := bind_eq_ok h
  obtain ⟨result, htrans, h⟩ := bind_eq_ok h
  cases result with
  | finish values => cases h
  | goto target =>
    obtain ⟨m₁, henter, h⟩ := bind_eq_ok h
    cases h
    exact ⟨m, m₁, target, htick, htrans, henter, rfl⟩

/-- Behind the last instruction of a block, a run fails for want of budget, at the terminator, or on entering a block. -/
theorem error_of_next (h : M.next f limit = .error e) : e = .budgetExhausted limit ∨ ∃ m, M.machine.tick limit = .ok m ∧
    (m.transfer M.block blk.term = .error e ∨
      ∃ target, m.transfer M.block blk.term = .ok (.goto target) ∧ m.enter f limit M.block target = .error e) := by
  rw [Func.instrAt?, Func.instrsOf_eq hblk] at hi
  simp only [next, hblk, hi] at h
  obtain htick | ⟨m, htick, h⟩ := bind_eq_error h
  · exact Or.inl (Machine.tick_eq_error htick)
  refine Or.inr ⟨m, htick, ?_⟩
  obtain htrans | ⟨result, htrans, h⟩ := bind_eq_error h
  · exact Or.inl htrans
  cases result with
  | finish values => cases h
  | goto target =>
    obtain henter | ⟨_, _, h⟩ := bind_eq_error h
    · exact Or.inr ⟨target, htrans, henter⟩
    · cases h

/-- Behind the last instruction of a block, the culprit is the first phi that cannot read its operand. -/
theorem culprit?_of_goto (htick : M.machine.tick limit = .ok m) (htrans : m.transfer M.block blk.term = .ok (.goto target)) :
    M.culprit? f = (f.phisAt target).find? (!m.receives M.block ·) := by
  have henv : m.env = M.machine.env := by rw [(Machine.tick_eq_ok.mp htick).2]
  rw [Machine.transfer_of_env henv] at htrans
  simp only [culprit?, hi, f.term?_eq hblk, Option.map_some, htrans, Machine.receives_of_env henv]

theorem culprit?_of_transfer_error (htick : M.machine.tick limit = .ok m)
    (htrans : m.transfer M.block blk.term = .error e) : M.culprit? f = none := by
  have henv : m.env = M.machine.env := by rw [(Machine.tick_eq_ok.mp htick).2]
  rw [Machine.transfer_of_env henv] at htrans
  simp only [culprit?, hi, f.term?_eq hblk, Option.map_some, htrans]

end End

end Moment

end SsaFusion
