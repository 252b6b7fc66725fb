import SsaFusion.Proofs.Data.Except
import SsaFusion.Proofs.Machine.Safety

/-!
# What a step reads and what it changes

A step reads its operands and nothing else of the bound values, and binds at most its result. The first half is stated by
machines that agree on the values that matter (`Agrees`): what one computes, the other does. The second half is the frame
of an operation (`execute_frame`) and of entering a block (`enter_frame`).
-/

namespace SsaFusion

namespace Machine

variable {m m' m₁ : Machine} {limit : Nat}

/-! ## Frames -/

theorem tick_eq_ok : m.tick limit = .ok m₁ ↔ m.steps < limit ∧ m₁ = { m with steps := m.steps + 1 } := by
  unfold tick
  split
  · simp [*, eq_comm]
  · simp [*]

theorem read_of_env (h : m'.env = m.env) (o : Operand) : m'.read o = m.read o := by
  cases o with
  | lit l => rfl
  | var v => rw [read, read, h]

/-- An operation takes no step, binds its result at most, and touches the arrays only if it has an effect. -/
theorem execute_frame {op : Op} (h : m.execute op = .ok m₁) :
    m₁.steps = m.steps ∧ (∀ v, op.dest? ≠ some v → m₁.env.get? v = m.env.get? v) ∧
      (op.hasEffect = false → m₁.memory = m.memory) := by
  have bound : ∀ {m : Machine} {d : ValueId} {x : Datum} {v : ValueId}, some d ≠ some v →
      (m.bind d x).env.get? v = m.env.get? v := by
    intro m d x v hne
    rw [bind, Table.get?_insert, if_neg fun e => hne (congrArg some e)]
  cases op with
  | assign d x | unary _ d x | binary _ d x _ =>
    obtain ⟨a, _, ha⟩ := bind_eq_ok h
    cases ha
    exact ⟨rfl, fun v hv => bound hv, fun _ => rfl⟩
  | alloc d size =>
    obtain ⟨⟨a, m₂⟩, ha, h⟩ := bind_eq_ok h
    cases h
    unfold allocate at ha
    split at ha
    · cases ha
      exact ⟨rfl, fun v hv => bound hv, Bool.noConfusion⟩
    · cases ha
  | shift d base offset =>
    obtain ⟨_, _, h⟩ := bind_eq_ok h
    obtain ⟨_, _, h⟩ := bind_eq_ok h
    cases h
    exact ⟨rfl, fun v hv => bound hv, fun _ => rfl⟩
  | load d address =>
    obtain ⟨_, _, h⟩ := bind_eq_ok h
    cases h
    exact ⟨rfl, fun v hv => bound hv, fun _ => rfl⟩
  | store address value =>
    obtain ⟨_, _, h⟩ := bind_eq_ok h
    obtain ⟨_, _, h⟩ := bind_eq_ok h
    cases h
    exact ⟨rfl, fun _ _ => rfl, Bool.noConfusion⟩
  | phi | nop =>
    cases h
    exact ⟨rfl, fun _ _ => rfl, fun _ => rfl⟩

/-- The result of a pure operation is a function of what its operands hold. -/
theorem execute_pure {op : Op} {d : ValueId} {m₁' m₂ m₂' : Machine} (hpure : op.isPure = true) (hd : op.dest? = some d)
    (hread : ∀ o ∈ op.operands, m₂.read o = m₁.read o) (h₁ : m₁.execute op = .ok m₁') (h₂ : m₂.execute op = .ok m₂') :
    ∃ x, m₁'.env.get? d = some x ∧ m₂'.env.get? d = some x := by
  have bound : ∀ (m : Machine) (x : Datum), (m.bind d x).env.get? d = some x := fun m x => by
    rw [bind, Table.get?_insert, if_pos rfl]
  have same : ∀ {r₁ r₂ : Except Fault Datum}, r₂ = r₁ → (r₁ >>= fun x => .ok (m₁.bind d x)) = .ok m₁' →
      (r₂ >>= fun x => .ok (m₂.bind d x)) = .ok m₂' → ∃ x, m₁'.env.get? d = some x ∧ m₂'.env.get? d = some x := by
    rintro r₁ _ rfl h₁ h₂
    obtain ⟨x, hx, h₁⟩ := bind_eq_ok h₁
    obtain ⟨y, hy, h₂⟩ := bind_eq_ok h₂
    cases hx.symm.trans hy
    cases h₁
    cases h₂
    exact ⟨x, bound _ x, bound _ x⟩
  cases op with
  | assign _ a =>
    cases hd
    exact same (hread a (by simp [Op.operands])) h₁ h₂
  | unary op _ a =>
    cases hd
    refine same ?_ h₁ h₂
    cases op <;> simp only [unary, readInt, readBool, hread a (by simp [Op.operands])]
  | binary op _ a b =>
    cases hd
    refine same ?_ h₁ h₂
    cases op <;>
      simp only [binary, onInts, onBools, equal, readInt, readBool, hread a (by simp [Op.operands]),
        hread b (by simp [Op.operands])]
  | shift _ base offset =>
    cases hd
    have hbase : m₂.readPtr base = m₁.readPtr base := by simp only [readPtr, hread base (by simp [Op.operands])]
    have hoff : m₂.readInt offset = m₁.readInt offset := by simp only [readInt, hread offset (by simp [Op.operands])]
    obtain ⟨delta, hdelta, h₁⟩ := bind_eq_ok h₁
    obtain ⟨p, hp, h₁⟩ := bind_eq_ok h₁
    obtain ⟨delta', hdelta', h₂⟩ := bind_eq_ok h₂
    obtain ⟨p', hp', h₂⟩ := bind_eq_ok h₂
    cases h₁
    cases h₂
    cases (hdelta.symm.trans hoff.symm).trans hdelta'
    cases (hp.symm.trans hbase.symm).trans hp'
    exact ⟨_, bound _ _, bound _ _⟩
  | phi | alloc | load => cases hpure
  | store | nop => cases hd

/-- What phis receive on an edge: each reads the operand listed for the edge, and nothing is bound yet. -/
theorem gather_frame {a b : BlockId} {is : List Instr} {incoming : List (ValueId × Datum)}
    (hphi : ∀ i ∈ is, i.isPhi = true) (h : m.gather limit a b is = .ok (m₁, incoming)) :
    m₁.env = m.env ∧ incoming.map Prod.fst = is.filterMap Instr.dest? ∧
      ∀ i ∈ is, ∀ d sources, i.op = .phi d sources →
        ∃ s x, sources.find? (·.1 == a) = some s ∧ m.read s.2 = .ok x ∧ (d, x) ∈ incoming := by
  induction is generalizing m m₁ incoming with
  | nil =>
    cases h
    exact ⟨rfl, rfl, fun i hi => by cases hi⟩
  | cons i rest ih =>
    rw [List.forall_mem_cons] at hphi
    obtain ⟨d, sources, hop⟩ := Instr.eq_phi_of_isPhi hphi.1
    rw [gather, hop] at h
    obtain ⟨m₂, htick, h⟩ := bind_eq_ok h
    have henv₂ : m₂.env = m.env := by rw [(tick_eq_ok.mp htick).2]
    cases hfind : sources.find? (·.1 == a) with
    | none =>
      rw [hfind] at h
      cases h
    | some s =>
      rw [hfind] at h
      obtain ⟨x, hread, h⟩ := bind_eq_ok h
      obtain ⟨⟨m₃, more⟩, hrest, h⟩ := bind_eq_ok h
      cases h
      obtain ⟨henv, hdests, hreads⟩ := ih hphi.2 hrest
      have hdest : i.dest? = some d := by rw [Instr.dest?, hop]; rfl
      refine ⟨henv.trans henv₂, ?_, List.forall_mem_cons.mpr ⟨?_, ?_⟩⟩
      · rw [List.filterMap_cons_some hdest, List.map_cons, hdests]
      · intro d' sources' hop'
        cases hop.symm.trans hop'
        exact ⟨s, x, hfind, read_of_env henv₂ s.2 ▸ hread, List.mem_cons_self ..⟩
      · intro j hj d' sources' hop'
        obtain ⟨s', x', hfind', hread', hmem⟩ := hreads j hj d' sources' hop'
        exact ⟨s', x', hfind', read_of_env henv₂ s'.2 ▸ hread', List.mem_cons_of_mem _ hmem⟩

/-- What entering a block binds. -/
theorem enter_frame {f : Func} {a b : BlockId} (hn : ((f.phisAt b).filterMap Instr.dest?).Nodup)
    (h : m.enter f limit a b = .ok m₁) :
    (∀ v, v ∉ (f.phisAt b).filterMap Instr.dest? → m₁.env.get? v = m.env.get? v) ∧
      ∀ i ∈ f.phisAt b, ∀ d sources, i.op = .phi d sources →
        ∃ s x, sources.find? (·.1 == a) = some s ∧ m.read s.2 = .ok x ∧ m₁.env.get? d = some x := by
  unfold enter at h
  split at h
  · cases h
  · rename_i blk hblk
    obtain ⟨⟨m₂, incoming⟩, hg, h⟩ := bind_eq_ok h
    cases h
    obtain ⟨henv, hdests, hreads⟩ := gather_frame (fun i => Block.isPhi_of_mem_phis) hg
    have hphis : f.phisAt b = blk.phis := by rw [Func.phisAt, hblk]; rfl
    rw [hphis] at hn ⊢
    rw [← hdests] at hn ⊢
    refine ⟨fun v hv => ?_, fun i hi d sources hop => ?_⟩
    · rw [Table.get?_insertAll_of_not_mem hv, henv]
    · obtain ⟨s, x, hfind, hread, hmem⟩ := hreads i hi d sources hop
      exact ⟨s, x, hfind, hread, Table.get?_insertAll_of_mem hn hmem⟩

theorem steps_gather {a b : BlockId} {is : List Instr} {incoming : List (ValueId × Datum)} (hle : m.steps ≤ limit)
    (h : m.gather limit a b is = .ok (m₁, incoming)) : m.steps ≤ m₁.steps ∧ m₁.steps ≤ limit := by
  induction is generalizing m m₁ incoming with
  | nil =>
    cases h
    exact ⟨Nat.le_refl _, hle⟩
  | cons i rest ih =>
    unfold gather at h
    split at h
    · obtain ⟨m₂, htick, h⟩ := bind_eq_ok h
      obtain ⟨hlt, rfl⟩ := tick_eq_ok.mp htick
      split at h
      · cases h
      · obtain ⟨_, _, h⟩ := bind_eq_ok h
        obtain ⟨⟨m₃, more⟩, hrest, h⟩ := bind_eq_ok h
        cases h
        obtain ⟨h₁, h₂⟩ := ih (m := { m with steps := m.steps + 1 }) hlt hrest
        simp only at h₁
        omega
    · exact ih hle h

/-- Entering a block takes steps within the budget. -/
theorem steps_enter {f : Func} {a b : BlockId} (hle : m.steps ≤ limit) (h : m.enter f limit a b = .ok m₁) :
    m.steps ≤ m₁.steps ∧ m₁.steps ≤ limit := by
  unfold enter at h
  split at h
  · cases h
  · obtain ⟨⟨m₂, incoming⟩, hg, h⟩ := bind_eq_ok h
    have hsteps := steps_gather hle hg
    cases h
    exact hsteps

/-- A terminator leads to a successor of its block. -/
theorem transfer_mem {f : Func} {b next : BlockId} {t : Terminator} (ht : f.term? b = some t)
    (h : m.transfer b t = .ok (.goto next)) : next ∈ f.successors b := by
  have hsucc : f.successors b = t.targets := by simp [Func.successors, ht]
  rw [hsucc]
  cases t with
  | jump target =>
    cases h
    simp [Terminator.targets]
  | branch c onTrue onFalse =>
    obtain ⟨x, _, h⟩ := bind_eq_ok h
    cases h
    rw [mem_targets_branch]
    cases x <;> simp
  | ret vs =>
    obtain ⟨_, _, h⟩ := bind_eq_ok h
    cases h
  | unreachable => cases h

/-! ## Agreement -/

/-- Two machines have the same arrays and bind the values that matter alike; the second has taken no more steps. -/
structure Agrees (good : ValueId → Prop) (m m' : Machine) : Prop where
  env : ∀ v, good v → m'.env.get? v = m.env.get? v
  memory : m'.memory = m.memory
  steps : m'.steps ≤ m.steps

namespace Agrees

variable {good : ValueId → Prop} {o x y : Operand}

theorem refl (m : Machine) : Agrees good m m := ⟨fun _ _ => rfl, rfl, Nat.le_refl _⟩

theorem bind (h : Agrees good m m') (d : ValueId) (a : Datum) : Agrees good (m.bind d a) (m'.bind d a) := by
  refine ⟨fun v hv => ?_, h.memory, h.steps⟩
  simp only [Machine.bind, Table.get?_insert, h.env v hv]

theorem withMemory (h : Agrees good m m') (cells : Array (Array Datum)) :
    Agrees good { m with memory := cells } { m' with memory := cells } := ⟨h.env, rfl, h.steps⟩

variable (h : Agrees good m m')

include h

theorem read (ho : Readable good o) : m'.read o = m.read o := by
  cases o with
  | lit l => rfl
  | var v => simp only [Machine.read, h.env v (ho v rfl)]

theorem readInt (ho : Readable good o) : m'.readInt o = m.readInt o := by
  simp only [Machine.readInt, h.read ho]

theorem readBool (ho : Readable good o) : m'.readBool o = m.readBool o := by
  simp only [Machine.readBool, h.read ho]

theorem readPtr (ho : Readable good o) : m'.readPtr o = m.readPtr o := by
  simp only [Machine.readPtr, h.read ho]

theorem locate (ho : Readable good o) : m'.locate o = m.locate o := by
  simp only [Machine.locate, h.readPtr ho, h.memory]

theorem readAll {os : List Operand} (ho : ∀ o ∈ os, Readable good o) : m'.readAll os = m.readAll os := by
  induction os with
  | nil => rfl
  | cons o rest ih =>
    rw [List.forall_mem_cons] at ho
    simp only [Machine.readAll, h.read ho.1, ih ho.2]

theorem unary (op : UnOp) (hx : Readable good x) : m'.unary op x = m.unary op x := by
  cases op <;> simp only [Machine.unary, h.readInt hx, h.readBool hx]

theorem binary (op : BinOp) (hx : Readable good x) (hy : Readable good y) : m'.binary op x y = m.binary op x y := by
  cases op <;>
    simp only [Machine.binary, Machine.onInts, Machine.onBools, Machine.equal, h.read hx, h.read hy, h.readInt hx,
      h.readInt hy, h.readBool hx, h.readBool hy]

/-- Counting a step on both sides. -/
theorem tick (ht : m.tick limit = .ok m₁) : ∃ m₁', m'.tick limit = .ok m₁' ∧ Agrees good m₁ m₁' := by
  obtain ⟨hlt, rfl⟩ := tick_eq_ok.mp ht
  have hle := h.steps
  exact ⟨_, tick_eq_ok.mpr ⟨by omega, rfl⟩, h.env, h.memory, by simp; omega⟩

/-- A step counted on one side only. -/
theorem tick_left (ht : m.tick limit = .ok m₁) : Agrees good m₁ m' := by
  obtain ⟨_, rfl⟩ := tick_eq_ok.mp ht
  exact ⟨h.env, h.memory, Nat.le_succ_of_le h.steps⟩

/-- An operation whose operands matter does the same on both sides, or fails on both. -/
theorem execute_alike {op : Op} (hops : ∀ o ∈ op.operands, Readable good o) :
    Alike (Agrees good) (m.execute op) (m'.execute op) := by
  cases op with
  | assign d x =>
    rw [Machine.execute, Machine.execute, h.read (hops x (by simp [Op.operands]))]
    exact .bind _ fun a => h.bind d a
  | unary op d x =>
    rw [Machine.execute, Machine.execute, h.unary op (hops x (by simp [Op.operands]))]
    exact .bind _ fun a => h.bind d a
  | binary op d x y =>
    rw [Machine.execute, Machine.execute, h.binary op (hops x (by simp [Op.operands])) (hops y (by simp [Op.operands]))]
    exact .bind _ fun a => h.bind d a
  | alloc d size =>
    simp only [Machine.execute, Machine.allocate, h.memory]
    split
    · exact (h.withMemory _).bind d _
    · exact rfl
  | shift d base offset =>
    rw [Machine.execute, Machine.execute, h.readInt (hops offset (by simp [Op.operands])),
      h.readPtr (hops base (by simp [Op.operands]))]
    exact .bind _ fun delta => .bind _ fun p => h.bind d _
  | load d address =>
    rw [Machine.execute, Machine.execute, h.locate (hops address (by simp [Op.operands]))]
    exact .bind _ fun cell => h.bind d _
  | store address value =>
    rw [Machine.execute, Machine.execute, h.read (hops value (by simp [Op.operands])),
      h.locate (hops address (by simp [Op.operands])), h.memory]
    exact .bind _ fun x => .bind _ fun cell => h.withMemory _
  | phi | nop => exact h

theorem execute {op : Op} (hops : ∀ o ∈ op.operands, Readable good o) (he : m.execute op = .ok m₁) :
    ∃ m₁', m'.execute op = .ok m₁' ∧ Agrees good m₁ m₁' := (h.execute_alike hops).ok he

/-- An operation without effect whose result does not matter may be done on one side only. -/
theorem execute_left {op : Op} (hpure : op.hasEffect = false) (hdest : ∀ d, op.dest? = some d → ¬good d)
    (he : m.execute op = .ok m₁) : Agrees good m₁ m' := by
  obtain ⟨hsteps, henv, hmem⟩ := execute_frame he
  refine ⟨fun v hv => ?_, h.memory.trans (hmem hpure).symm, hsteps ▸ h.steps⟩
  rw [henv v fun hd => hdest v hd hv, h.env v hv]

end Agrees

end Machine

end SsaFusion
