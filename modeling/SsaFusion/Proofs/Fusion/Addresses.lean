import SsaFusion.Proofs.Fusion.Clearance
import SsaFusion.Proofs.Fusion.Sharing

/-!
# Addresses at run time

An address leads back to a base by copies and shifts, whose cells have careful expressions (`Traces`). In a run without
wrap-around, the pointer that it holds points into an array that the base allocated, at the offset that was found
(`Traces.pointer`): each shift added the value of its expression, and a parameter is no base of a pointer, for parameters hold
integers. No number is given to two arrays (`Allocates.unique`), so addresses with different bases never name the same cell.
-/

namespace SsaFusion

open Func (OperandHas)

theorem Machine.read_of_readPtr {m : Machine} {o : Operand} {a : Nat} {n : Word} (h : m.readPtr o = .ok (a, n)) :
    m.read o = .ok (.ptr a n) := by
  obtain ⟨d, hd, h⟩ := bind_eq_ok h
  cases d <;> cases h
  exact hd

/-- An access is made by a load or a store, through a pointer to the cell. -/
theorem Moment.exists_touch {f : Func} {M : Moment} {a n : Nat} {w : Bool} (h : M.access? f = some ((a, n), w)) :
    ∃ o offset, f.Touches ⟨M.block, M.done⟩ o w ∧ M.machine.readPtr o = .ok (a, offset) ∧ offset.toInt = n := by
  obtain ⟨i, hi, hacc⟩ := Option.bind_eq_some_iff.mp h
  have hptr : ∀ o x, (M.machine.locate o).toOption = some (a, n, x) →
      ∃ offset, M.machine.readPtr o = .ok (a, offset) ∧ offset.toInt = n := by
    intro o x ho
    cases hloc : M.machine.locate o with
    | error => rw [hloc] at ho; cases ho
    | ok c =>
      rw [hloc] at ho
      cases ho
      obtain ⟨offset, hread, hneg, hn, -⟩ := Machine.locate_eq_ok.mp hloc
      have hpos : 0 ≤ offset.toInt := Int.not_lt.mp fun hlt => hneg (Int64.lt_iff_toInt_lt.mpr hlt)
      exact ⟨offset, hread, by omega⟩
  cases hop : i.op with
  | load d o =>
    rw [hop] at hacc
    obtain ⟨⟨a', n', x⟩, hloc, heq⟩ := Option.map_eq_some_iff.mp hacc
    cases heq
    obtain ⟨offset, hread, hn⟩ := hptr o x hloc
    exact ⟨o, offset, .load hi hop, hread, hn⟩
  | store o y =>
    rw [hop] at hacc
    obtain ⟨⟨a', n', x⟩, hloc, heq⟩ := Option.map_eq_some_iff.mp hacc
    cases heq
    obtain ⟨offset, hread, hn⟩ := hptr o x hloc
    exact ⟨o, offset, .store hi hop, hread, hn⟩
  | assign | unary | binary | phi | alloc | shift | nop =>
    rw [hop] at hacc
    cases hacc

/-! ## Definitions -/

namespace Func

variable {f : Func} {v : ValueId} {op : Op} {o : Operand} {b : BlockId} {n : Nat}

/-- What defines a value is an instruction with that operation. -/
theorem exists_definition (h : f.definingOp? v = some op) :
    ∃ q m i, f.instrAt? q m = some i ∧ i.op = op ∧ i.dest? = some v := by
  obtain ⟨⟨q, m, i⟩, hdef, hop⟩ := Option.map_eq_some_iff.mp h
  obtain ⟨hi, hd⟩ := instrAt?_of_definition? hdef
  exact ⟨q, m, i, hi, hop, hd⟩

/-- Where a value is available, so is what its definition reads. -/
theorem readable_definition (hv : f.Valid) (hall : ∀ b, b < f.blocks.length → f.Live b) (h : f.definingOp? v = some op)
    (hphi : op.isPhi = false) (hav : f.AvailableBefore b n v) (hb : f.Live b) (ho : o ∈ op.operands) :
    Machine.Readable (f.AvailableBefore b n) o := by
  obtain ⟨q, m, i, hi, rfl, hd⟩ := exists_definition h
  have hdef : f.DefinedAt v q m := ⟨i, hi, hd⟩
  obtain ⟨q', m', hdef', hlt⟩ := (availableBefore_iff.mp hav).resolve_left (not_mem_params hv.once hdef.mem_destsAt)
  obtain ⟨rfl, rfl⟩ := hdef.unique hv.once hdef'
  intro w hw
  have hsettled : f.Settled q m (.value w) := readable_operand hv hi hphi (hdef.live hall) ho w hw
  exact hsettled.mono hlt hb

namespace Completes

variable {args : List Word} {limit N k : Nat} {M : Nat → Moment} {r : RunResult} {x : Datum}
variable (C : f.Completes args limit M N r)

include C

/-- A value that is no phi was computed from what its operands still hold. -/
theorem exists_execution (hv : f.Valid) (hall : ∀ b, b < f.blocks.length → f.Live b) (h : f.definingOp? v = some op)
    (hphi : op.isPhi = false) (hk : k ≤ N) (hav : f.AvailableBefore (M k).block (M k).done v) :
    ∃ j i act, j < k ∧ (M j).Executes f (M (j + 1)) i act ∧ i.op = op ∧ op.dest? = some v ∧
      (M k).machine.env.get? v = (M (j + 1)).machine.env.get? v ∧
      ∀ o ∈ op.operands, (M k).machine.read o = (M j).machine.read o := by
  obtain ⟨q, m, i, hi, rfl, hd⟩ := exists_definition h
  have hdef : f.DefinedAt v q m := ⟨i, hi, hd⟩
  obtain ⟨j, act, hj, hexec, hvalue, hread⟩ := C.exists_computation hv hi (hdef.live hall) hphi hd hk hav
  exact ⟨j, i, act, hj, hexec, rfl, hd, hvalue, hread⟩

/-- A parameter holds an integer. -/
theorem param_holds_int (hn : f.defined.Nodup) (hv : v ∈ f.params) (hk : k ≤ N) (hx : (M k).machine.env.get? v = some x) :
    ∃ n, x = .int n := by
  rw [C.env_frame hn (Nat.zero_le k) hk fun n _ _ hmem => not_mem_params hn hmem hv, C.start (C.moment 0 (Nat.zero_le N))] at hx
  rcases Table.mem_or_get?_of_insertAll hx with hx | hx
  · obtain ⟨n, _, hn⟩ := List.mem_map.mp (List.of_mem_zip hx).2
    exact ⟨n, hn.symm⟩
  · cases hx

end Completes

end Func

/-! ## Allocations -/

/-- In some step of a run, a value is defined by an allocation with a number. -/
def Allocates (f : Func) (M : Nat → Moment) (N : Nat) (v : ValueId) (a : Nat) : Prop :=
  ∃ j i size, j < N ∧ f.instrAt? (M j).block (M j).done = some i ∧ i.op = .alloc v size ∧ (M j).machine.memory.size = a

section Arrays

variable {f : Func} {args : List Word} {limit N k a : Nat} {M : Nat → Moment} {r : RunResult} {v w : ValueId}
variable (C : f.Completes args limit M N r) (hn : f.defined.Nodup)

include C

/-- An allocation takes its number. -/
theorem size_lt_of_alloc {j size : Nat} {i : Instr} (hj : j < N) (hi : f.instrAt? (M j).block (M j).done = some i)
    (hop : i.op = .alloc v size) : (M j).machine.memory.size < (M (j + 1)).machine.memory.size := by
  obtain ⟨-, act, h⟩ := C.executes hj.le hi
  have hact := h.action
  rw [hop, Machine.action] at hact
  split at hact
  · cases hact
    have hmade : (M (j + 1)).machine.store.made (M j).machine.memory.size := by
      rw [h.store]
      exact Or.inl rfl
    exact hmade
  · cases hact

include hn

/-- No number is given twice. -/
theorem Allocates.unique (h : Allocates f M N v a) (h' : Allocates f M N w a) : v = w := by
  obtain ⟨j, i, size, hj, hi, hop, rfl⟩ := h
  obtain ⟨j', i', size', hj', hi', hop', heq⟩ := h'
  have hlt := size_lt_of_alloc C hj hi hop
  have hlt' := size_lt_of_alloc C hj' hi' hop'
  rcases Nat.lt_trichotomy j j' with hless | rfl | hless
  · have := C.size_mono hn (show j + 1 ≤ j' by omega) hj'.le
    omega
  · rw [Option.some.inj (hi.symm.trans hi'), hop'] at hop
    cases hop
    rfl
  · have := C.size_mono hn (show j' + 1 ≤ j by omega) hj.le
    omega

end Arrays

/-! ## What holds pointers -/

section Pointers

variable {f : Func} {args : List Word} {limit N k a : Nat} {M : Nat → Moment} {r : RunResult} {v d w : ValueId} {cells : Word}
variable (C : f.Completes args limit M N r) (X : f.ExactRun args limit) (hk : k ≤ N)
variable (hav : f.AvailableBefore (M k).block (M k).done v)

include C X hk hav

/-- A copy holds what it copies. -/
theorem holds_of_copy {x : Datum} (hop : f.definingOp? v = some (.assign d (.var w)))
    (hx : (M k).machine.env.get? v = some x) : (M k).machine.env.get? w = some x := by
  obtain ⟨j, i, act, hj, hexec, hiop, hd, hvalue, hsame⟩ := C.exists_execution X.valid X.live hop rfl hk hav
  have hact := hexec.action
  rw [hiop] at hact
  obtain ⟨y, hy, hact⟩ := bind_eq_ok hact
  cases hact
  cases hd
  rw [hvalue, hexec.get?_bind] at hx
  cases hx
  exact Machine.get?_of_read ((hsame (.var w) (by simp [Op.operands])).trans hy)

/-- A shift holds a pointer into the same array, as many cells on as its operand says. -/
theorem holds_of_shift {o : Operand} (hop : f.definingOp? v = some (.shift d (.var w) o))
    (hptr : (M k).machine.env.get? v = some (.ptr a cells)) :
    ∃ start delta, (M k).machine.env.get? w = some (.ptr a start) ∧ (M k).machine.read o = .ok (.int delta) ∧
      cells.toInt = start.toInt + delta.toInt := by
  obtain ⟨j, i, act, hj, hexec, hiop, hd, hvalue, hsame⟩ := C.exists_execution X.valid X.live hop rfl hk hav
  have hact := hexec.action
  rw [hiop] at hact
  obtain ⟨delta, hdelta, hact⟩ := bind_eq_ok hact
  obtain ⟨⟨a', start⟩, hstart, hact⟩ := bind_eq_ok hact
  cases hact
  cases hd
  rw [hvalue, hexec.get?_bind] at hptr
  cases hptr
  refine ⟨start, delta, Machine.get?_of_read ((hsame (.var w) (by simp [Op.operands])).trans
    (Machine.read_of_readPtr hstart)), (hsame o (by simp [Op.operands])).trans (Machine.read_of_readInt hdelta), ?_⟩
  refine Int.modEq_zero_iff.mp (X.exact j (M j) i _ _ (C.moment j (by omega)) hexec.instr ?_)
  rw [hiop, Machine.arithmetic?, hdelta, hstart]
  rfl

/-- An allocation holds a pointer to the first cell of its array. -/
theorem holds_of_alloc {size : Nat} (hop : f.definingOp? v = some (.alloc d size))
    (hptr : (M k).machine.env.get? v = some (.ptr a cells)) : Allocates f M N v a ∧ cells.toInt = 0 := by
  obtain ⟨j, i, act, hj, hexec, hiop, hd, hvalue, -⟩ := C.exists_execution X.valid X.live hop rfl hk hav
  have hact := hexec.action
  rw [hiop, Machine.action] at hact
  cases hd
  split at hact
  · cases hact
    rw [hvalue, hexec.get?_make] at hptr
    cases hptr
    exact ⟨⟨j, i, size, by omega, hexec.instr, hiop, rfl⟩, rfl⟩
  · cases hact

end Pointers

/-! ## Traces -/

namespace Func.Traces

variable {f : Func} {v : ValueId} {offset : SymExpr} {P : Location} (h : f.Traces v offset P)

include h

theorem known : offset.isKnown = true := by
  induction h with
  | shift _ _ _ ih => exact (SymExpr.plus_exactIn ih).1
  | copy _ _ ih => exact ih
  | array _ hk | param _ hk => exact hk

/-- What is true of the atoms of all cells on the way is true of the atoms of the offset, given a property of values that passes
on from a value to what defines it. -/
theorem atoms_induct {good : ValueId → Prop} {A : Atom → Prop} (hgood : good v)
    (hpass : ∀ {v op}, f.definingOp? v = some op → op.isPhi = false → good v → ∀ w, .var w ∈ op.operands → good w)
    (hcells : ∀ {v e}, good v → f.CarefulOf v e → ∀ x ∈ e.atoms, A x) (hoffset : ∀ x ∈ offset.atoms, A x) :
    ∀ x ∈ P.offset.atoms, A x := by
  induction h with
  | @shift v d w cells offset e P hop he hbase ih =>
    refine ih (hpass hop rfl hgood w (by simp [Op.operands])) fun x hx => ?_
    rcases List.mem_append.mp ((SymExpr.plus_exactIn hbase.known).2.2.2 hx) with hx | hx
    · exact hoffset x hx
    · cases cells with
      | lit a =>
        cases a <;> cases he <;> cases hx
      | var u => exact hcells (hpass hop rfl hgood u (by simp [Op.operands])) he x hx
  | copy hop _ ih => exact ih (hpass hop rfl hgood _ (by simp [Op.operands])) hoffset
  | array _ _ | param _ _ => exact hoffset

/-- The offset of an address is made of what is settled where the address is available. -/
theorem settled {args : List Word} {limit n : Nat} {b : BlockId} (X : f.ExactRun args limit) (hav : f.AvailableBefore b n v)
    (hb : f.Live b) (hoffset : ∀ x ∈ offset.atoms, f.Settled b n x) : ∀ x ∈ P.offset.atoms, f.Settled b n x := by
  refine h.atoms_induct hav (fun hop hphi hav w hw => ?_) (fun {v e} hav he => ?_) hoffset
  · exact readable_definition X.valid X.live hop hphi hav hb hw w rfl
  · refine X.settled (o := .var v) he (fun w hw => ?_) hb
    cases hw
    exact hav

/-- The offset of a shared address has nothing of the first loop in it but what every round computes alike. -/
theorem unvaried {l₁ l₂ : Loop} {p : Plan} {args : List Word} {limit : Nat} (L : Layout f l₁ l₂ p) (X : f.ExactRun args limit)
    (hscalars : (Snapshot.of f).scalarDependences l₁ l₂ = some []) (hshared : p.Shared f l₁ l₂ v)
    (hoffset : ∀ x ∈ offset.atoms, f.Unvaried l₁ x) : ∀ x ∈ P.offset.atoms, f.Unvaried l₁ x := by
  refine h.atoms_induct hshared (fun hop hphi hshared w hw => ?_) (fun hshared he => ?_) hoffset
  · obtain ⟨q, m, i, hi, rfl, hd⟩ := exists_definition hop
    exact L.shared_of_read X.valid hscalars hshared hi hd hphi (DefinedAt.live ⟨i, hi, hd⟩ X.live) (i.mem_reads.mpr hw)
  · exact L.unvaried_of_shared X.valid hscalars X.live X.entry he hshared

/-- **What an address holds** is a pointer into an array of its base, at the offset that was found. -/
theorem pointer {args : List Word} {limit N k a : Nat} {M : Nat → Moment} {r : RunResult} (C : f.Completes args limit M N r)
    (X : f.ExactRun args limit) (hk : k ≤ N) (hav : f.AvailableBefore (M k).block (M k).done v) {cells : Word}
    (hptr : (M k).machine.env.get? v = some (.ptr a cells)) :
    Allocates f M N P.base a ∧ P.offset.eval (M k).coded = offset.eval (M k).coded + cells.toInt := by
  have hlive := C.live X.valid.once hk
  induction h generalizing cells with
  | @shift v d w o offset e P hop he hbase ih =>
    have hreadable : ∀ o' ∈ [.var w, o], Machine.Readable (f.AvailableBefore (M k).block (M k).done) o' := fun o' ho' =>
      readable_definition X.valid X.live hop rfl hav hlive ho'
    obtain ⟨start, delta, hstart, hdelta, hsum⟩ := holds_of_shift C X hk hav hop hptr
    obtain ⟨-, hke, hplus, -⟩ := SymExpr.plus_exactIn hbase.known
    have hcells : delta.toInt = e.eval (M k).coded := X.code_eq_eval he hke (C.moment k hk) (hreadable o (by simp)) hdelta
    obtain ⟨halloc, heval⟩ := ih (hreadable (.var w) (by simp) w rfl) hstart
    refine ⟨halloc, ?_⟩
    rw [heval, SymExpr.eval, hplus, hsum, hcells, SymExpr.eval, SymExpr.eval]
    ring
  | @copy v d w offset P hop _ ih =>
    refine ih ?_ (holds_of_copy C X hk hav hop hptr)
    exact readable_definition X.valid X.live hop rfl hav hlive (o := .var w) (by simp [Op.operands]) w rfl
  | @array v d size offset hop _ =>
    obtain ⟨halloc, hzero⟩ := holds_of_alloc C X hk hav hop hptr
    exact ⟨halloc, by rw [hzero, add_zero]⟩
  | param hv _ =>
    obtain ⟨n, hn⟩ := C.param_holds_int X.valid.once hv hk hptr
    cases hn

end Func.Traces

end SsaFusion
