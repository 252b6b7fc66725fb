import SsaFusion.Proofs.Machine.Completion

/-!
# Following another run

One machine works its way through a program, and another follows with the same code, in which reads of some values are replaced
by reads of others (`Operand.through`). Between the two stands a store: the follower holds what is in the store (`Named`), and
whatever the leader reads, the store has under the replaced name (`Sees`). Instructions whose results nobody asks for are left
out by the follower. This module follows one instruction (`Named.follow`, `Named.ignore`), a list of them (`Named.runInstrs`),
the phis of a block (`Named.enter`) and a terminator (`Named.goto`, `Named.finish`).
-/

namespace SsaFusion

/-- The operand with reads of values replaced by reads of others. -/
def Operand.through (τ : ValueId → ValueId) : Operand → Operand
  | .lit l => .lit l
  | .var v => .var (τ v)

namespace Store

/-- What an operand holds. -/
def read? (s : Store) : Operand → Option Datum
  | .lit l => some (Datum.ofLiteral l)
  | .var v => s.env v

/-- What a machine reads, the store has under another name. -/
def Shows (τ : ValueId → ValueId) (s : Store) (m : Machine) (o : Operand) : Prop :=
  ∀ x, m.read o = .ok x → s.read? (o.through τ) = some x

/-- All that an operation reads is in the store, as far as the store has the array. -/
structure Sees (τ : ValueId → ValueId) (s : Store) (m : Machine) (op : Op) : Prop where
  operand : ∀ o ∈ op.operands, s.Shows τ m o
  cell : ∀ a n w, m.access? op = some ((a, n), w) → s.made a → s.cell a n = m.cell? a n

/-- Only values have to be shown. -/
theorem shows_of_env {τ : ValueId → ValueId} {s : Store} {m : Machine} {o : Operand}
    (h : ∀ v, o = .var v → ∀ x, m.env.get? v = some x → s.env (τ v) = some x) : s.Shows τ m o := by
  intro x hx
  cases o with
  | lit l =>
    cases hx
    rfl
  | var v => exact h v rfl x (Machine.get?_of_read hx)

end Store

namespace Machine

variable {m : Machine} {op : Op} {act : Action}

/-- An operation without effect binds its result or does nothing. -/
theorem action_of_pure (heffect : op.hasEffect = false) (h : m.action op = .ok act) :
    act = .skip ∨ ∃ d x, op.dest? = some d ∧ act = .bind d x := by
  cases op with
  | alloc | store => cases heffect
  | phi | nop =>
    cases h
    exact Or.inl rfl
  | shift d base offset =>
    obtain ⟨_, _, h⟩ := bind_eq_ok h
    obtain ⟨_, _, h⟩ := bind_eq_ok h
    cases h
    exact Or.inr ⟨d, _, rfl, rfl⟩
  | assign d | unary _ d | binary _ d | load d =>
    obtain ⟨_, _, h⟩ := bind_eq_ok h
    cases h
    exact Or.inr ⟨d, _, rfl, rfl⟩

end Machine

/-- Operands are readable if the stand-ins of their values are. -/
theorem readable_through {good : ValueId → Prop} {τ : ValueId → ValueId} {os : List Operand}
    (hgood : ∀ v ∈ valuesOf os, good (τ v)) : ∀ o ∈ os, Machine.Readable good (o.through τ) := by
  intro o ho w hw
  cases o with
  | lit => cases hw
  | var v =>
    cases hw
    exact hgood v (List.mem_filterMap.mpr ⟨_, ho, rfl⟩)

namespace Store.Named

variable {good : ValueId → Prop} {ρ : Nat → Option Nat} {s s' : Store} {m F : Machine} {op : Op} {act : Action}
variable {τ : ValueId → ValueId} {fresh limit : Nat} {keep : Instr → Bool}

variable (h : Named good ρ s F)

include h

theorem read {o : Operand} {x : Datum} (ho : Machine.Readable good o) (hx : s.read? o = some x) :
    ∃ y, F.read o = .ok y ∧ x.rename ρ = some y := by
  cases o with
  | lit l =>
    cases hx
    exact ⟨_, rfl, by cases l <;> rfl⟩
  | var v =>
    obtain ⟨y, hy, e⟩ := h.env v (ho v rfl) x hx
    refine ⟨y, ?_, e⟩
    simp only [Machine.read, hy]

theorem reads {o : Operand} (hs : s.Shows τ m o) (ho : Machine.Readable good (o.through τ)) :
    Machine.Reads ρ m F o (o.through τ) := by
  intro x hx
  exact h.read ho (hs x hx)

/-- The follower takes the action of the leader. -/
theorem follow (hact : m.action op = .ok act) (hsees : s.Sees τ m op) (hgood : ∀ v ∈ valuesOf op.operands, good (τ v))
    (hfresh : ¬s.made fresh) :
    ∃ F' ρ', F.execute (op.mapOperands (Operand.through τ)) = .ok F' ∧ Named good ρ' (s.perform fresh act) F' := by
  have hreads : ∀ q ∈ op.operands, Machine.Reads ρ m F q (q.through τ) := fun q hq =>
    h.reads (hsees.operand q hq) (readable_through hgood q hq)
  have hcell : ∀ a n w x, m.access? op = some ((a, n), w) → m.cell? a n = some x → ∀ c, ρ a = some c →
      ∃ y, F.cell? c n = some y ∧ x.rename ρ = some y := by
    intro a n w x hacc hx c hc
    exact h.cell a c hc n x ((hsees.cell a n w hacc ((h.made a).mpr (by rw [hc]; rfl))).trans hx)
  obtain ⟨act', hact', hren⟩ := Machine.action_rename hreads hcell hact
  have hallow : s.Allows act := by
    have hm := Machine.allows_of_action hact
    cases act with
    | write a n x =>
      obtain ⟨c, hc, -⟩ := Option.bind_eq_some_iff.mp hren
      rw [Store.Allows, hsees.cell a n true (Machine.access?_of_write hact) ((h.made a).mpr (by rw [hc]; rfl))]
      exact hm
    | bind | make | skip => trivial
  obtain ⟨ρ', h'⟩ := h.perform hfresh hallow hren
  refine ⟨F.perform act', ρ', ?_, h'⟩
  rw [Machine.execute_eq, hact']
  rfl

/-- The follower leaves out an instruction without effect whose result nobody asks for. -/
theorem ignore (hact : m.action op = .ok act) (heffect : op.hasEffect = false) (hd : ∀ d, op.dest? = some d → ¬good d) :
    Named good ρ (s.perform fresh act) F := by
  rcases Machine.action_of_pure heffect hact with rfl | ⟨d, x, hdest, rfl⟩
  · exact h
  · refine h.congr (fun v hv => Function.update_of_ne ?_ _ _) (fun _ _ _ => rfl) fun _ => Iff.rfl
    rintro rfl
    exact hd v hdest hv

/-- What an operation accesses is an array that there is. -/
theorem made_of_access {a n : Nat} {w : Bool} (hshow : ∀ o ∈ op.operands, s.Shows τ m o)
    (hgood : ∀ v ∈ valuesOf op.operands, good (τ v)) (hacc : m.access? op = some ((a, n), w)) : s.made a := by
  have hmade : ∀ o ∈ op.operands, ∀ x, m.locate o = .ok (a, n, x) → s.made a := by
    intro o ho x hloc
    obtain ⟨k, hptr, -⟩ := Machine.locate_eq_ok.mp hloc
    obtain ⟨c, hc, -⟩ := (h.reads (hshow o ho) (readable_through hgood o ho)).ptr hptr
    exact (h.made a).mpr (by rw [hc]; rfl)
  cases op with
  | load _ address | store address _ =>
    obtain ⟨⟨a', n', x⟩, hloc, heq⟩ := Option.map_eq_some_iff.mp hacc
    cases heq
    cases hl : m.locate address with
    | error e => rw [hl] at hloc; cases hloc
    | ok c =>
      rw [hl] at hloc
      cases hloc
      exact hmade address (by simp [Op.operands]) x hl
  | _ => cases hacc

omit h in
/-- The follower runs what it keeps of a list of instructions, while an invariant holds. -/
theorem runInstrs {is : List Instr} {m : Nat → Machine} {s : Nat → Store} {P : Nat → Prop}
    (hstep : ∀ n i, is[n]? = some i → P n → ∃ act fresh, (m n).action i.op = .ok act ∧
      s (n + 1) = (s n).perform fresh act ∧ ¬(s n).made fresh ∧ (keep i = true → (s n).Sees τ (m n) i.op))
    (hinv : ∀ n i ρ F, is[n]? = some i → P n → Named good ρ (s n) F → P (n + 1))
    (hkept : ∀ i ∈ is, keep i = true → ∀ v ∈ i.reads, good (τ v))
    (hdrop : ∀ i ∈ is, keep i = false → i.hasEffect = false ∧ ∀ d, i.dest? = some d → ¬good d)
    (hsteps : F.steps + is.length ≤ limit) (hP : P 0) (h : Named good ρ (s 0) F) :
    ∃ F' ρ', F.runInstrs limit ((is.filter keep).map fun i => { i with op := i.op.mapOperands (Operand.through τ) }) = .ok F' ∧
      Named good ρ' (s is.length) F' ∧ F'.steps ≤ F.steps + is.length ∧ P is.length := by
  induction is generalizing m s P F ρ with
  | nil => exact ⟨F, ρ, rfl, h, Nat.le_refl _, hP⟩
  | cons i rest ih =>
    obtain ⟨act, fresh, hact, hs, hfresh, hsees⟩ := hstep 0 i rfl hP
    have hP' := hinv 0 i ρ F rfl hP h
    have hrest : ∀ n j, rest[n]? = some j → P (n + 1) → ∃ act fresh, (m (n + 1)).action j.op = .ok act ∧
        s (n + 1 + 1) = (s (n + 1)).perform fresh act ∧ ¬(s (n + 1)).made fresh ∧
          (keep j = true → (s (n + 1)).Sees τ (m (n + 1)) j.op) := fun n j hj => hstep (n + 1) j hj
    have hnext : ∀ n j ρ F, rest[n]? = some j → P (n + 1) → Named good ρ (s (n + 1)) F → P (n + 1 + 1) :=
      fun n j ρ F hj => hinv (n + 1) j ρ F hj
    rw [List.length_cons] at hsteps
    rw [List.forall_mem_cons] at hkept hdrop
    cases hk : keep i with
    | false =>
      have h₁ : Named good ρ (s 1) F := hs ▸ h.ignore hact (hdrop.1 hk).1 (hdrop.1 hk).2
      obtain ⟨F', ρ', hrun, h', hle, hlast⟩ := ih (m := fun n => m (n + 1)) (s := fun n => s (n + 1))
        (P := fun n => P (n + 1)) hrest hnext hkept.2 hdrop.2 (by omega) hP' h₁
      refine ⟨F', ρ', ?_, h', by rw [List.length_cons]; omega, hlast⟩
      rw [List.filter_cons_of_neg (by simp [hk])]
      exact hrun
    | true =>
      obtain ⟨F₁, ρ₁, hexec, h₁⟩ := (h.withSteps (F.steps + 1)).follow hact (hsees hk) (hkept.1 hk) hfresh
      have hF₁ : F₁.steps = F.steps + 1 := (Machine.execute_frame hexec).1
      obtain ⟨F', ρ', hrun, h', hle, hlast⟩ := ih (m := fun n => m (n + 1)) (s := fun n => s (n + 1))
        (P := fun n => P (n + 1)) hrest hnext hkept.2 hdrop.2 (by omega) hP' (hs ▸ h₁)
      refine ⟨F', ρ', ?_, h', by rw [List.length_cons]; omega, hlast⟩
      rw [List.filter_cons_of_pos hk, List.map_cons, Machine.runInstrs, Machine.tick, if_pos (by omega), ok_bind, hexec]
      exact hrun

/-- The follower receives what its phis ask for. -/
theorem gather {a c : BlockId} {is : List Instr} (hphi : ∀ i ∈ is, i.isPhi = true)
    (hread : ∀ i ∈ is, ∀ d sources, i.op = .phi d sources → ∃ q x, sources.find? (·.1 == a) = some q ∧
      Machine.Readable good q.2 ∧ s.read? q.2 = some x ∧ s'.env d = some x) (hsteps : F.steps + is.length ≤ limit) :
    ∃ incoming, F.gather limit a c is = .ok ({ F with steps := F.steps + is.length }, incoming) ∧
      incoming.map Prod.fst = is.filterMap Instr.dest? ∧
      ∀ d y, (d, y) ∈ incoming → ∃ x, s'.env d = some x ∧ x.rename ρ = some y := by
  induction is generalizing F with
  | nil =>
    refine ⟨[], rfl, rfl, ?_⟩
    intro d y hmem
    cases hmem
  | cons i rest ih =>
    obtain ⟨d, sources, hop⟩ := Instr.eq_phi_of_isPhi (hphi i (List.mem_cons_self ..))
    obtain ⟨q, x, hfind, hq, hx, hd⟩ := hread i (List.mem_cons_self ..) d sources hop
    have h₁ := h.withSteps (F.steps + 1)
    obtain ⟨y, hy, hxy⟩ := h₁.read hq hx
    rw [List.length_cons] at hsteps
    obtain ⟨more, hgather, hfst, hmore⟩ := ih h₁ (fun i hi => hphi i (List.mem_cons_of_mem _ hi))
      (fun i hi => hread i (List.mem_cons_of_mem _ hi)) (by simp only; omega)
    refine ⟨(d, y) :: more, ?_, ?_, ?_⟩
    · simp only [Machine.gather, hop, Machine.tick, if_pos (show F.steps < limit by omega), ok_bind, hfind, hy, hgather]
      simp only [List.length_cons, Nat.add_assoc, Nat.add_comm 1]
    · rw [List.map_cons, hfst, List.filterMap_cons_some]
      rw [Instr.dest?, hop]
      rfl
    · intro e z hmem
      rcases List.mem_cons.mp hmem with heq | hmem
      · cases heq
        exact ⟨x, hd, hxy⟩
      · exact hmore e z hmem

/-- The follower enters a block. -/
theorem enter {g : Func} {a c : BlockId} (hc : c < g.blocks.length) (hn : ((g.phisAt c).filterMap Instr.dest?).Nodup)
    (hread : ∀ i ∈ g.phisAt c, ∀ d sources, i.op = .phi d sources → ∃ q x, sources.find? (·.1 == a) = some q ∧
      Machine.Readable good q.2 ∧ s.read? q.2 = some x ∧ s'.env d = some x)
    (hframe : ∀ v, good v → v ∉ (g.phisAt c).filterMap Instr.dest? → s'.env v = s.env v)
    (hcell : ∀ b, s.made b → ∀ n, s'.cell b n = s.cell b n) (hmade : ∀ b, s'.made b ↔ s.made b)
    (hsteps : F.steps + (g.phisAt c).length ≤ limit) :
    ∃ F', F.enter g limit a c = .ok F' ∧ Named good ρ s' F' ∧ F'.steps = F.steps + (g.phisAt c).length := by
  have hblk : g.block? c = some g.blocks[c] := List.getElem?_eq_getElem hc
  have hphis : g.phisAt c = g.blocks[c].phis := by rw [Func.phisAt, hblk]; rfl
  obtain ⟨incoming, hgather, hfst, hin⟩ := h.gather (c := c) (fun i hi => g.isPhi_of_mem_phisAt hi) hread hsteps
  refine ⟨{ F with steps := F.steps + (g.phisAt c).length, env := F.env.insertAll incoming }, ?_, ?_, rfl⟩
  · unfold Machine.enter
    rw [hblk]
    simp only [← hphis, hgather, ok_bind]
  · refine ⟨h.injective, fun b => (hmade b).trans (h.made b), h.bound, fun v hv x hx => ?_, fun b d hd n x hx => ?_⟩
    · by_cases hmem : v ∈ (g.phisAt c).filterMap Instr.dest?
      · rw [← hfst] at hmem hn
        obtain ⟨⟨w, y⟩, hwy, rfl⟩ := List.mem_map.mp hmem
        obtain ⟨x', hx', hxy⟩ := hin w y hwy
        cases hx.symm.trans hx'
        exact ⟨y, Table.get?_insertAll_of_mem hn hwy, hxy⟩
      · rw [hframe v hv hmem] at hx
        obtain ⟨y, hy, hxy⟩ := h.env v hv x hx
        refine ⟨y, ?_, hxy⟩
        rw [← hfst] at hmem
        rw [← hy]
        exact Table.get?_insertAll_of_not_mem hmem
    · rw [hcell b ((h.made b).mpr (by rw [hd]; rfl))] at hx
      exact h.cell b d hd n x hx

section Terminators

variable {b c : BlockId} {t : Terminator} {g : BlockId → BlockId}
variable (hshow : ∀ o ∈ t.operands, s.Shows τ m o) (hgood : ∀ v ∈ valuesOf t.operands, good (τ v))

include hshow hgood

/-- The follower goes where the leader goes, as far as targets are the same. -/
theorem goto {n : BlockId} (ht : m.transfer b t = .ok (.goto n)) :
    F.transfer c ((t.mapOperands (Operand.through τ)).mapTargets g) = .ok (.goto (g n)) := by
  have hreads : ∀ o ∈ t.operands, Machine.Reads ρ m F o (o.through τ) := fun o ho =>
    h.reads (hshow o ho) (readable_through hgood o ho)
  cases t with
  | jump n' =>
    cases ht
    rfl
  | branch q t e =>
    obtain ⟨d, hd, ht⟩ := bind_eq_ok ht
    have hd' := (hreads q (by simp [Terminator.operands])).bool hd
    simp only [Terminator.mapOperands, Terminator.mapTargets, Machine.transfer, hd', ok_bind]
    cases d <;> cases ht <;> rfl
  | ret vs =>
    obtain ⟨_, _, ht⟩ := bind_eq_ok ht
    cases ht
  | unreachable => cases ht

omit h hshow hgood in
theorem readAll {os : List Operand} {values : List Datum} (hreads : ∀ o ∈ os, Machine.Reads ρ m F o (o.through τ))
    (hplain : ∀ x ∈ values, x.rename ρ = some x) (hr : m.readAll os = .ok values) :
    F.readAll (os.map (Operand.through τ)) = .ok values := by
  induction os generalizing values with
  | nil =>
    cases hr
    rfl
  | cons o rest ih =>
    obtain ⟨x, hx, hr⟩ := bind_eq_ok hr
    obtain ⟨xs, hxs, hr⟩ := bind_eq_ok hr
    cases hr
    rw [List.forall_mem_cons] at hreads hplain
    obtain ⟨y, hy, hxy⟩ := hreads.1 x hx
    cases (hplain.1).symm.trans hxy
    simp only [List.map_cons, Machine.readAll, hy, ok_bind, ih hreads.2 hplain.2 hxs]

/-- The follower returns the numbers and truth values that the leader returns. -/
theorem finish {values : List Datum} (hplain : ∀ x ∈ values, x.rename ρ = some x)
    (ht : m.transfer b t = .ok (.finish values)) :
    F.transfer c ((t.mapOperands (Operand.through τ)).mapTargets g) = .ok (.finish values) := by
  have hreads : ∀ o ∈ t.operands, Machine.Reads ρ m F o (o.through τ) := fun o ho =>
    h.reads (hshow o ho) (readable_through hgood o ho)
  cases t with
  | jump => cases ht
  | branch =>
    obtain ⟨_, _, ht⟩ := bind_eq_ok ht
    cases ht
  | ret vs =>
    obtain ⟨values', hvs, ht⟩ := bind_eq_ok ht
    cases ht
    have hall : F.readAll (vs.map (Operand.through τ)) = .ok values := readAll hreads hplain hvs
    simp only [Terminator.mapOperands, Terminator.mapTargets, Machine.transfer, hall, ok_bind]
  | unreachable => cases ht

end Terminators

end Store.Named

end SsaFusion
