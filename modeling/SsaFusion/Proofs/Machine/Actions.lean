import Mathlib.Logic.Function.Basic
import SsaFusion.Proofs.Machine.Frame

/-!
# What an operation does

An operation binds a value, makes an array, writes a cell or does nothing (`Action`). Which of these it does depends on what
it reads; what that does to a machine depends on the action only (`execute_eq`). So machines can be compared that hold the
same data in differently numbered arrays: `Named` relates a store to a machine by the number that the machine has for each
array of the store, and an action on both keeps them related (`Named.perform`).
-/

namespace SsaFusion

/-- The effect of an operation on a machine. -/
inductive Action where
  | bind (dest : ValueId) (datum : Datum)
  /-- Makes an array of zeros and binds a pointer to it. -/
  | make (dest : ValueId) (size : Nat)
  | write (allocation index : Nat) (datum : Datum)
  | skip

/-- The value that an action binds. -/
def Action.dest? : Action → Option ValueId
  | .bind d _ | .make d _ => some d
  | .write _ _ _ | .skip => none

namespace Machine

variable (m : Machine)

/-- The content of a cell. -/
def cell? (a n : Nat) : Option Datum := m.memory[a]?.bind (·[n]?)

/-- The action of an operation. -/
def action : Op → Except Fault Action
  | .assign d x => do .ok (.bind d (← m.read x))
  | .unary op d x => do .ok (.bind d (← m.unary op x))
  | .binary op d x y => do .ok (.bind d (← m.binary op x y))
  | .alloc d size => if size ≤ maxCells then .ok (.make d size) else .error (.arrayTooLarge size)
  | .shift d base offset => do
    let delta ← m.readInt offset
    let (a, n) ← m.readPtr base
    .ok (.bind d (.ptr a (n + delta)))
  | .load d address => do .ok (.bind d (← m.locate address).2.2)
  | .store address value => do
    let d ← m.read value
    let (a, n, _) ← m.locate address
    .ok (.write a n d)
  | .phi _ _ | .nop => .ok .skip

/-- The state after an action. -/
def perform : Action → Machine
  | .bind d x => m.bind d x
  | .make d size => { m with memory := m.memory.push (Array.replicate size (.int 0)) }.bind d (.ptr m.memory.size 0)
  | .write a n x => { m with memory := m.memory.modify a (·.setIfInBounds n x) }
  | .skip => m

/-- The cell that an operation reads or writes, and whether it writes it. -/
def access? : Op → Option ((Nat × Nat) × Bool)
  | .load _ address => (m.locate address).toOption.map fun c => ((c.1, c.2.1), false)
  | .store address _ => (m.locate address).toOption.map fun c => ((c.1, c.2.1), true)
  | _ => none

variable {m} {m' F : Machine} {a c n : Nat} {o o' : Operand} {x y : Datum} {op : Op} {act act' : Action}

/-- An operation takes its action. -/
theorem execute_eq (op : Op) : m.execute op = m.action op >>= fun act => .ok (m.perform act) := by
  cases op with
  | assign d x => cases h : m.read x <;> simp only [execute, action, h] <;> rfl
  | unary op d x => cases h : m.unary op x <;> simp only [execute, action, h] <;> rfl
  | binary op d x y => cases h : m.binary op x y <;> simp only [execute, action, h] <;> rfl
  | alloc d size => by_cases h : size ≤ maxCells <;> simp only [execute, action, allocate, h] <;> rfl
  | shift d base offset =>
    cases h : m.readInt offset <;> cases h' : m.readPtr base <;> simp only [execute, action, h, h'] <;> rfl
  | load d address => cases h : m.locate address <;> simp only [execute, action, h] <;> rfl
  | store address value =>
    cases h : m.read value <;> cases h' : m.locate address <;> simp only [execute, action, h, h'] <;> rfl
  | phi | nop => rfl

theorem execute_eq_ok (h : m.execute op = .ok m') : ∃ act, m.action op = .ok act ∧ m' = m.perform act := by
  rw [execute_eq] at h
  obtain ⟨act, hact, h⟩ := bind_eq_ok h
  cases h
  exact ⟨act, hact, rfl⟩

/-- What is read from a value is what the value holds. -/
theorem get?_of_read {v : ValueId} (h : m.read (.var v) = .ok x) : m.env.get? v = some x := by
  rw [read] at h
  split at h
  · cases h
    assumption
  · cases h

/-- The cell at an address. -/
theorem locate_eq_ok : m.locate o = .ok (a, n, x) ↔
    ∃ w : Word, m.readPtr o = .ok (a, w) ∧ ¬w < 0 ∧ n = w.toInt.toNat ∧ m.cell? a n = some x := by
  unfold locate cell?
  cases hp : m.readPtr o with
  | error e =>
    constructor
    · intro h
      cases h
    · rintro ⟨w, h, -⟩
      cases h
  | ok q =>
    obtain ⟨b, w⟩ := q
    simp only [ok_bind]
    constructor
    · intro h
      split at h
      · cases h
      · rename_i cells hcells
        split at h
        · cases h
        · rename_i hneg
          split at h
          · rename_i d hd
            cases h
            exact ⟨w, rfl, hneg, rfl, by rw [hcells, Option.bind_some, hd]⟩
          · cases h
    · rintro ⟨w', h, hneg, rfl, hcell⟩
      cases h
      obtain ⟨cells, hcells, hd⟩ := Option.bind_eq_some_iff.mp hcell
      simp only [hcells, if_neg hneg, hd]

end Machine

/-! ## Names -/

/-- A datum whose allocation has another number. -/
def Datum.rename (ρ : Nat → Option Nat) : Datum → Option Datum
  | .ptr a n => (ρ a).map (.ptr · n)
  | d => some d

/-- An action in which allocations have other numbers. -/
def Action.rename (ρ : Nat → Option Nat) : Action → Option Action
  | .bind d x => (x.rename ρ).map (.bind d)
  | .make d size => some (.make d size)
  | .write a n x => (ρ a).bind fun c => (x.rename ρ).map (.write c n)
  | .skip => some .skip

/-- One machine reads an operand as the other reads another operand, up to the numbers of allocations. -/
def Machine.Reads (ρ : Nat → Option Nat) (m F : Machine) (o o' : Operand) : Prop :=
  ∀ x, m.read o = .ok x → ∃ y, F.read o' = .ok y ∧ x.rename ρ = some y

namespace Machine

variable {m F : Machine} {ρ : Nat → Option Nat} {o o' q q' : Operand} {x y : Datum}

namespace Reads

variable (h : Reads ρ m F o o')

include h

theorem int {n : Word} (hr : m.readInt o = .ok n) : F.readInt o' = .ok n := by
  obtain ⟨x, hx, hr⟩ := bind_eq_ok hr
  cases x <;> cases hr
  obtain ⟨y, hy, e⟩ := h _ hx
  cases e
  rw [readInt, hy]
  rfl

theorem bool {b : Bool} (hr : m.readBool o = .ok b) : F.readBool o' = .ok b := by
  obtain ⟨x, hx, hr⟩ := bind_eq_ok hr
  cases x <;> cases hr
  obtain ⟨y, hy, e⟩ := h _ hx
  cases e
  rw [readBool, hy]
  rfl

theorem ptr {a : Nat} {n : Word} (hr : m.readPtr o = .ok (a, n)) : ∃ c, ρ a = some c ∧ F.readPtr o' = .ok (c, n) := by
  obtain ⟨x, hx, hr⟩ := bind_eq_ok hr
  cases x <;> cases hr
  obtain ⟨y, hy, e⟩ := h _ hx
  obtain ⟨c, hc, rfl⟩ := Option.map_eq_some_iff.mp e
  refine ⟨c, hc, ?_⟩
  rw [readPtr, hy]
  rfl

theorem unary {op : UnOp} (hr : m.unary op o = .ok x) : F.unary op o' = .ok x ∧ x.rename ρ = some x := by
  cases op with
  | neg =>
    obtain ⟨n, hn, hr⟩ := bind_eq_ok hr
    cases hr
    simp only [Machine.unary, h.int hn]
    exact ⟨rfl, rfl⟩
  | not =>
    obtain ⟨b, hb, hr⟩ := bind_eq_ok hr
    cases hr
    simp only [Machine.unary, h.bool hb]
    exact ⟨rfl, rfl⟩

variable (h' : Reads ρ m F q q')

include h'

theorem onInts {k : Word → Word → Except Fault Datum} (hk : ∀ a b d, k a b = .ok d → d.rename ρ = some d)
    (hr : m.onInts o q k = .ok x) : F.onInts o' q' k = .ok x ∧ x.rename ρ = some x := by
  obtain ⟨a, ha, hr⟩ := bind_eq_ok hr
  obtain ⟨b, hb, hr⟩ := bind_eq_ok hr
  simp only [Machine.onInts, h.int ha, h'.int hb]
  exact ⟨hr, hk a b x hr⟩

theorem onBools {k : Bool → Bool → Bool} (hr : m.onBools o q k = .ok x) :
    F.onBools o' q' k = .ok x ∧ x.rename ρ = some x := by
  obtain ⟨a, ha, hr⟩ := bind_eq_ok hr
  obtain ⟨b, hb, hr⟩ := bind_eq_ok hr
  cases hr
  simp only [Machine.onBools, h.bool ha, h'.bool hb]
  exact ⟨rfl, rfl⟩

theorem equal {b : Bool} (hr : m.equal o q = .ok b) : F.equal o' q' = .ok b := by
  obtain ⟨x, hx, hr⟩ := bind_eq_ok hr
  obtain ⟨y, hy, hr⟩ := bind_eq_ok hr
  obtain ⟨x', hx', e⟩ := h x hx
  obtain ⟨y', hy', e'⟩ := h' y hy
  cases x with
  | ptr => cases hr
  | int | bool =>
    cases e
    cases y with
    | int | bool =>
      cases e'
      simp only [Machine.equal, hx', hy']
      exact hr
    | ptr => cases hr

/-- The result of an operator is a number or a truth value. -/
theorem binary {op : BinOp} (hr : m.binary op o q = .ok x) : F.binary op o' q' = .ok x ∧ x.rename ρ = some x := by
  have plain : ∀ {k : Word → Word → Datum}, (∀ a b, (k a b).rename ρ = some (k a b)) →
      m.onInts o q (fun a b => .ok (k a b)) = .ok x → F.onInts o' q' (fun a b => .ok (k a b)) = .ok x ∧ x.rename ρ = some x :=
    fun hk => h.onInts h' fun a b d hd => by
      cases hd
      exact hk a b
  have divides : ∀ {k : Word → Word → Word},
      m.onInts o q (fun a b => if b = 0 then .error .divisionByZero else .ok (.int (k a b))) = .ok x →
      F.onInts o' q' (fun a b => if b = 0 then .error .divisionByZero else .ok (.int (k a b))) = .ok x ∧
        x.rename ρ = some x :=
    h.onInts h' fun a b d hd => by
      split at hd
      · cases hd
      · cases hd
        rfl
  cases op with
  | add | sub | mul => exact plain (fun _ _ => rfl) hr
  | lt | le | gt | ge => exact plain (fun _ _ => rfl) hr
  | div | rem => exact divides hr
  | and | or => exact h.onBools h' hr
  | eq | ne =>
    obtain ⟨b, hb, hr⟩ := bind_eq_ok hr
    cases hr
    simp only [Machine.binary, h.equal h' hb]
    exact ⟨rfl, rfl⟩

end Reads

/-- **The action of an operation, with other numbers for allocations**, if the operands are read so and the cell that is
accessed holds what it does on the other side. -/
theorem action_rename {σ : Operand → Operand} {op : Op} {act : Action}
    (hreads : ∀ q ∈ op.operands, Reads ρ m F q (σ q))
    (hcell : ∀ a n w x, m.access? op = some ((a, n), w) → m.cell? a n = some x → ∀ c, ρ a = some c →
      ∃ y, F.cell? c n = some y ∧ x.rename ρ = some y)
    (h : m.action op = .ok act) : ∃ act', F.action (op.mapOperands σ) = .ok act' ∧ act.rename ρ = some act' := by
  have located : ∀ {q a n x w}, Reads ρ m F q (σ q) → m.locate q = .ok (a, n, x) →
      m.access? op = some ((a, n), w) →
      ∃ c y, ρ a = some c ∧ F.locate (σ q) = .ok (c, n, y) ∧ x.rename ρ = some y := by
    intro q a n x w hq hl hacc
    obtain ⟨off, hp, hneg, hn, hx⟩ := locate_eq_ok.mp hl
    obtain ⟨c, hc, hp'⟩ := hq.ptr hp
    obtain ⟨y, hy, e⟩ := hcell a n w x hacc hx c hc
    exact ⟨c, y, hc, locate_eq_ok.mpr ⟨off, hp', hneg, hn, hy⟩, e⟩
  cases op with
  | assign d q =>
    obtain ⟨x, hx, h⟩ := bind_eq_ok h
    cases h
    obtain ⟨y, hy, e⟩ := hreads q (by simp [Op.operands]) x hx
    refine ⟨.bind d y, ?_, by rw [Action.rename, e]; rfl⟩
    simp only [Op.mapOperands, action, hy]
    rfl
  | unary op d q =>
    obtain ⟨x, hx, h⟩ := bind_eq_ok h
    cases h
    obtain ⟨hy, e⟩ := (hreads q (by simp [Op.operands])).unary hx
    refine ⟨.bind d x, ?_, by rw [Action.rename, e]; rfl⟩
    simp only [Op.mapOperands, action, hy]
    rfl
  | binary op d q r =>
    obtain ⟨x, hx, h⟩ := bind_eq_ok h
    cases h
    obtain ⟨hy, e⟩ := (hreads q (by simp [Op.operands])).binary (hreads r (by simp [Op.operands])) hx
    refine ⟨.bind d x, ?_, by rw [Action.rename, e]; rfl⟩
    simp only [Op.mapOperands, action, hy]
    rfl
  | alloc d size =>
    rw [action] at h
    split at h
    · rename_i hle
      cases h
      exact ⟨.make d size, if_pos hle, rfl⟩
    · cases h
  | shift d base offset =>
    obtain ⟨delta, hdelta, h⟩ := bind_eq_ok h
    obtain ⟨⟨a, n⟩, hp, h⟩ := bind_eq_ok h
    cases h
    obtain ⟨c, hc, hp'⟩ := (hreads base (by simp [Op.operands])).ptr hp
    refine ⟨.bind d (.ptr c (n + delta)), ?_, by rw [Action.rename, Datum.rename, hc]; rfl⟩
    simp only [Op.mapOperands, action, (hreads offset (by simp [Op.operands])).int hdelta, hp']
    rfl
  | load d address =>
    obtain ⟨⟨a, n, x⟩, hl, h⟩ := bind_eq_ok h
    cases h
    obtain ⟨c, y, -, hl', e⟩ := located (w := false) (hreads address (by simp [Op.operands])) hl
      (by simp [access?, hl, Except.toOption])
    refine ⟨.bind d y, ?_, by rw [Action.rename, e]; rfl⟩
    simp only [Op.mapOperands, action, hl']
    rfl
  | store address value =>
    obtain ⟨x, hx, h⟩ := bind_eq_ok h
    obtain ⟨⟨a, n, z⟩, hl, h⟩ := bind_eq_ok h
    cases h
    obtain ⟨y, hy, e⟩ := hreads value (by simp [Op.operands]) x hx
    obtain ⟨c, _, hc, hl', -⟩ := located (w := true) (hreads address (by simp [Op.operands])) hl
      (by simp [access?, hl, Except.toOption])
    refine ⟨.write c n y, ?_, by rw [Action.rename, hc, e]; rfl⟩
    simp only [Op.mapOperands, action, hy, hl']
    rfl
  | phi | nop =>
    cases h
    exact ⟨.skip, rfl, rfl⟩

end Machine

/-! ## Stores -/

/-- What a machine holds, apart from where. -/
@[ext] structure Store where
  env : ValueId → Option Datum
  cell : Nat → Nat → Option Datum
  /-- The arrays that there are. -/
  made : Nat → Prop

namespace Store

/-- The store after an action, in which a new array gets the given number. -/
def perform (s : Store) (fresh : Nat) : Action → Store
  | .bind d x => { s with env := Function.update s.env d (some x) }
  | .make d size =>
    { env := Function.update s.env d (some (.ptr fresh 0))
      cell := Function.update s.cell fresh fun n => if n < size then some (.int 0) else none
      made := fun a => a = fresh ∨ s.made a }
  | .write a n x => { s with cell := Function.update s.cell a (Function.update (s.cell a) n (some x)) }
  | .skip => s

theorem env_perform {s : Store} {fresh : Nat} {act : Action} {v : ValueId} (hv : act.dest? ≠ some v) :
    (s.perform fresh act).env v = s.env v := by
  cases act with
  | bind d | make d => exact Function.update_of_ne (fun h => hv (congrArg some h.symm)) _ _
  | write | skip => rfl

/-- The cell that an action writes is there. -/
def Allows (s : Store) : Action → Prop
  | .write a n _ => (s.cell a n).isSome
  | _ => True

end Store

namespace Machine

variable {m : Machine}

/-- What a machine holds. -/
def store (m : Machine) : Store := ⟨m.env.get?, m.cell?, (· < m.memory.size)⟩

theorem lt_of_cell? {a n : Nat} {x : Datum} (h : m.cell? a n = some x) : a < m.memory.size := by
  obtain ⟨cells, hcells, -⟩ := Option.bind_eq_some_iff.mp h
  exact (Array.getElem?_eq_some_iff.mp hcells).1

theorem allows_of_action {op : Op} {act : Action} (h : m.action op = .ok act) : m.store.Allows act := by
  cases op with
  | store address value =>
    obtain ⟨x, -, h⟩ := bind_eq_ok h
    obtain ⟨⟨a, n, z⟩, hl, h⟩ := bind_eq_ok h
    cases h
    obtain ⟨_, _, _, _, hz⟩ := locate_eq_ok.mp hl
    exact Option.isSome_iff_exists.mpr ⟨z, hz⟩
  | alloc d size =>
    rw [action] at h
    split at h
    · cases h
      trivial
    · cases h
  | shift d base offset =>
    obtain ⟨_, _, h⟩ := bind_eq_ok h
    obtain ⟨_, _, h⟩ := bind_eq_ok h
    cases h
    trivial
  | assign | unary | binary | load =>
    obtain ⟨_, _, h⟩ := bind_eq_ok h
    cases h
    trivial
  | phi | nop =>
    cases h
    trivial

/-- An action binds nothing but the result. -/
theorem dest?_of_action {op : Op} {act : Action} {d : ValueId} (h : m.action op = .ok act) (hd : act.dest? = some d) :
    op.dest? = some d := by
  cases op with
  | store address value =>
    obtain ⟨_, _, h⟩ := bind_eq_ok h
    obtain ⟨_, _, h⟩ := bind_eq_ok h
    cases h
    cases hd
  | alloc d size =>
    rw [action] at h
    split at h
    · cases h
      exact hd
    · cases h
  | shift d base offset =>
    obtain ⟨_, _, h⟩ := bind_eq_ok h
    obtain ⟨_, _, h⟩ := bind_eq_ok h
    cases h
    exact hd
  | assign | unary | binary | load =>
    obtain ⟨_, _, h⟩ := bind_eq_ok h
    cases h
    exact hd
  | phi | nop =>
    cases h
    cases hd

/-- An operation that writes a cell accesses it. -/
theorem access?_of_write {op : Op} {a n : Nat} {x : Datum} (h : m.action op = .ok (.write a n x)) :
    m.access? op = some ((a, n), true) := by
  cases op with
  | store address value =>
    obtain ⟨y, -, h⟩ := bind_eq_ok h
    obtain ⟨⟨b, k, z⟩, hl, h⟩ := bind_eq_ok h
    cases h
    rw [access?, hl]
    rfl
  | alloc d size =>
    rw [action] at h
    split at h <;> cases h
  | shift d base offset =>
    obtain ⟨_, _, h⟩ := bind_eq_ok h
    obtain ⟨_, _, h⟩ := bind_eq_ok h
    cases h
  | assign | unary | binary | load =>
    obtain ⟨_, _, h⟩ := bind_eq_ok h
    cases h
  | phi | nop => cases h

/-- What an operation accesses is there. -/
theorem cell?_of_access? {op : Op} {a n : Nat} {w : Bool} (hacc : m.access? op = some ((a, n), w)) :
    ∃ x, m.cell? a n = some x := by
  cases op with
  | load _ address | store address _ =>
    obtain ⟨⟨a', n', x⟩, hl, heq⟩ := Option.map_eq_some_iff.mp hacc
    cases heq
    cases hloc : m.locate address with
    | error e => rw [hloc] at hl; cases hl
    | ok c =>
      rw [hloc] at hl
      cases hl
      obtain ⟨_, _, _, _, hx⟩ := locate_eq_ok.mp hloc
      exact ⟨x, hx⟩
  | _ => cases hacc

theorem hasEffect_of_access? {op : Op} {c : Nat × Nat} (hacc : m.access? op = some (c, true)) : op.hasEffect = true := by
  cases op with
  | load d address =>
    obtain ⟨_, _, heq⟩ := Option.map_eq_some_iff.mp hacc
    cases heq
  | store address value => rfl
  | _ => cases hacc

/-- An operation that accesses a cell in order to write it does so. -/
theorem write_of_access? {op : Op} {act : Action} {a n : Nat} (h : m.action op = .ok act)
    (hacc : m.access? op = some ((a, n), true)) : ∃ x, act = .write a n x := by
  cases op with
  | store address value =>
    obtain ⟨y, -, h⟩ := bind_eq_ok h
    obtain ⟨⟨b, k, z⟩, hl, h⟩ := bind_eq_ok h
    rw [access?, hl] at hacc
    cases h
    cases hacc
    exact ⟨y, rfl⟩
  | load d address =>
    obtain ⟨_, _, heq⟩ := Option.map_eq_some_iff.mp hacc
    cases heq
  | _ => cases hacc

theorem store_perform {act : Action} (h : m.store.Allows act) :
    (m.perform act).store = m.store.perform m.memory.size act := by
  have henv : ∀ (m : Machine) (d : ValueId) (x : Datum), (m.bind d x).env.get? = Function.update m.env.get? d (some x) := by
    intro m d x
    funext v
    rw [bind, Table.get?_insert, Function.update_apply]
    exact if_congr eq_comm rfl rfl
  cases act with
  | bind d x => exact congrArg (fun e => Store.mk e m.cell? (· < m.memory.size)) (henv m d x)
  | make d size =>
    refine congr (congr (congrArg Store.mk (henv _ d _)) ?_) ?_
    · funext a n
      simp only [perform, bind, cell?, Function.update_apply, Array.getElem?_push]
      split
      · simp [Array.getElem?_replicate]
      · rfl
    · funext a
      simp only [perform, bind, Array.size_push, store, eq_iff_iff]
      omega
  | write a n x =>
    refine congr (congr (congrArg Store.mk rfl) ?_) ?_
    · funext b k
      simp only [Store.Allows, store, Option.isSome_iff_exists] at h
      obtain ⟨y, hy⟩ := h
      obtain ⟨cells, hcells, hk⟩ := Option.bind_eq_some_iff.mp hy
      have hlt := (Array.getElem?_eq_some_iff.mp hk).1
      simp only [perform, cell?, Array.getElem?_modify, Function.update_apply]
      by_cases hb : a = b
      · subst hb
        simp only [if_true, hcells, Option.map_some, Option.bind_some, Array.getElem?_setIfInBounds, Function.update_apply,
          store, cell?]
        by_cases hn : n = k
        · subst hn
          simp [hlt]
        · simp [hn, Ne.symm hn]
      · simp [hb, Ne.symm hb, store, cell?]
    · funext b
      simp [perform, store]
  | skip => rfl

end Machine

/-- A machine holds what a store holds, where the store is asked for the values that matter, and the arrays of the store
have the numbers that `ρ` gives them. -/
structure Store.Named (good : ValueId → Prop) (ρ : Nat → Option Nat) (s : Store) (F : Machine) : Prop where
  injective : ∀ a b c, ρ a = some c → ρ b = some c → a = b
  made : ∀ a, s.made a ↔ (ρ a).isSome
  bound : ∀ a c, ρ a = some c → c < F.memory.size
  env : ∀ v, good v → ∀ x, s.env v = some x → ∃ y, F.env.get? v = some y ∧ x.rename ρ = some y
  cell : ∀ a c, ρ a = some c → ∀ n x, s.cell a n = some x → ∃ y, F.cell? c n = some y ∧ x.rename ρ = some y

namespace Store.Named

variable {good : ValueId → Prop} {ρ : Nat → Option Nat} {s s' : Store} {F : Machine} {act act' : Action}

theorem rename_mono {ρ' : Nat → Option Nat} (hle : ∀ a c, ρ a = some c → ρ' a = some c) {x y : Datum}
    (h : x.rename ρ = some y) : x.rename ρ' = some y := by
  cases x with
  | ptr a n =>
    obtain ⟨c, hc, rfl⟩ := Option.map_eq_some_iff.mp h
    rw [Datum.rename, hle a c hc]
    rfl
  | int | bool => exact h

/-- What a machine holds, it holds under the same names. -/
theorem refl (m : Machine) (hmem : m.memory = #[]) (henv : ∀ v x, m.env.get? v = some x → x.rename (fun _ => none) = some x) :
    Named good (fun _ => none) m.store m where
  injective := by
    intro a b c h
    cases h
  made a := by simp [Machine.store, hmem]
  bound := by
    intro a c h
    cases h
  env v _ x hx := ⟨x, hx, henv v x hx⟩
  cell := by
    intro a c h
    cases h

variable (h : Named good ρ s F)

include h

/-- Only what the store is asked for matters. -/
theorem congr (henv : ∀ v, good v → s'.env v = s.env v) (hcell : ∀ a, s.made a → ∀ n, s'.cell a n = s.cell a n)
    (hmade : ∀ a, s'.made a ↔ s.made a) : Named good ρ s' F where
  injective := h.injective
  made a := (hmade a).trans (h.made a)
  bound := h.bound
  env v hv x hx := h.env v hv x (henv v hv ▸ hx)
  cell a c hc n x hx := h.cell a c hc n x (hcell a ((h.made a).mpr (by rw [hc]; rfl)) n ▸ hx)

/-- The number of steps does not matter. -/
theorem withSteps (n : Nat) : Named good ρ s { F with steps := n } := ⟨h.injective, h.made, h.bound, h.env, h.cell⟩

theorem bind {d : ValueId} {x y : Datum} (hxy : x.rename ρ = some y) :
    Named good ρ { s with env := Function.update s.env d (some x) } (F.bind d y) where
  injective := h.injective
  made := h.made
  bound := h.bound
  env v hv z hz := by
    simp only [Function.update_apply] at hz
    rw [Machine.bind, Table.get?_insert]
    by_cases e : v = d
    · rw [if_pos e] at hz
      cases hz
      exact ⟨y, if_pos e.symm, hxy⟩
    · rw [if_neg e] at hz
      rw [if_neg (Ne.symm e)]
      exact h.env v hv z hz
  cell := h.cell

theorem write {a c n : Nat} {x y : Datum} (hc : ρ a = some c) (hxy : x.rename ρ = some y) (hin : (s.cell a n).isSome) :
    Named good ρ { s with cell := Function.update s.cell a (Function.update (s.cell a) n (some x)) }
      { F with memory := F.memory.modify c (·.setIfInBounds n y) } where
  injective := h.injective
  made := h.made
  bound b d hd := by
    have := h.bound b d hd
    simpa using this
  env := h.env
  cell b d hd k z hz := by
    simp only [Function.update_apply] at hz
    simp only [Machine.cell?, Array.getElem?_modify]
    by_cases hb : b = a
    · subst hb
      cases hc.symm.trans hd
      obtain ⟨z₀, hz₀⟩ := Option.isSome_iff_exists.mp hin
      obtain ⟨y₀, hy₀, -⟩ := h.cell b c hc n z₀ hz₀
      obtain ⟨cells, hcells, hn⟩ := Option.bind_eq_some_iff.mp hy₀
      have hlt := (Array.getElem?_eq_some_iff.mp hn).1
      rw [if_pos rfl] at hz
      simp only [if_true, hcells, Option.map_some, Option.bind_some, Array.getElem?_setIfInBounds]
      by_cases hk : k = n
      · subst hk
        rw [Function.update_self] at hz
        cases hz
        exact ⟨y, by simp [hlt], hxy⟩
      · rw [Function.update_of_ne hk] at hz
        rw [if_neg (Ne.symm hk)]
        obtain ⟨y', hy', e⟩ := h.cell b c hc k z hz
        rw [Machine.cell?, hcells, Option.bind_some] at hy'
        exact ⟨y', hy', e⟩
    · have hne : c ≠ d := fun e => hb (h.injective b a c (e ▸ hd) hc)
      rw [if_neg hb] at hz
      rw [if_neg hne]
      exact h.cell b d hd k z hz

theorem make {fresh size : Nat} {d : ValueId} (hfresh : ¬s.made fresh) :
    Named good (Function.update ρ fresh (some F.memory.size)) (s.perform fresh (.make d size)) (F.perform (.make d size)) := by
  have hnone : ρ fresh = none := by
    rw [h.made] at hfresh
    simpa using hfresh
  have hle : ∀ a c, ρ a = some c → Function.update ρ fresh (some F.memory.size) a = some c := by
    intro a c hc
    rwa [Function.update_of_ne]
    rintro rfl
    rw [hnone] at hc
    cases hc
  have hsplit : ∀ a c, Function.update ρ fresh (some F.memory.size) a = some c →
      a = fresh ∧ c = F.memory.size ∨ ρ a = some c ∧ c < F.memory.size := by
    intro a c hc
    by_cases e : a = fresh
    · subst e
      rw [Function.update_self] at hc
      exact Or.inl ⟨rfl, (Option.some.inj hc).symm⟩
    · rw [Function.update_of_ne e] at hc
      exact Or.inr ⟨hc, h.bound a c hc⟩
  constructor
  · intro a b c ha hb
    rcases hsplit a c ha with ⟨rfl, rfl⟩ | ⟨ha, hlt⟩ <;> rcases hsplit b _ hb with ⟨rfl, e⟩ | ⟨hb, hlt'⟩
    · rfl
    · omega
    · omega
    · exact h.injective a b c ha hb
  · intro a
    simp only [Store.perform, h.made, Function.update_apply]
    by_cases e : a = fresh <;> simp [e]
  · intro a c hc
    simp only [Machine.perform, Machine.bind, Array.size_push]
    rcases hsplit a c hc with ⟨-, rfl⟩ | ⟨-, hlt⟩ <;> omega
  · intro v hv x hx
    simp only [Store.perform, Function.update_apply] at hx
    simp only [Machine.perform, Machine.bind, Table.get?_insert]
    by_cases e : v = d
    · rw [if_pos e] at hx
      cases hx
      exact ⟨.ptr F.memory.size 0, if_pos e.symm, by simp [Datum.rename]⟩
    · rw [if_neg e] at hx
      rw [if_neg (Ne.symm e)]
      obtain ⟨y, hy, hxy⟩ := h.env v hv x hx
      exact ⟨y, hy, rename_mono hle hxy⟩
  · intro a c hc n x hx
    simp only [Store.perform, Function.update_apply] at hx
    simp only [Machine.perform, Machine.bind, Machine.cell?, Array.getElem?_push]
    rcases hsplit a c hc with ⟨rfl, rfl⟩ | ⟨hc', hlt⟩
    · rw [if_pos rfl] at hx
      obtain ⟨hn, hx⟩ := Option.ite_none_right_eq_some.mp hx
      cases hx
      exact ⟨.int 0, by simp [hn], rfl⟩
    · have hne : a ≠ fresh := by
        rintro rfl
        rw [hnone] at hc'
        cases hc'
      rw [if_neg hne] at hx
      rw [if_neg (Nat.ne_of_lt hlt)]
      obtain ⟨y, hy, hxy⟩ := h.cell a c hc' n x hx
      exact ⟨y, hy, rename_mono hle hxy⟩

/-- **An action on both sides** keeps a machine holding what the store holds. -/
theorem perform {fresh : Nat} (hfresh : ¬s.made fresh) (hallow : s.Allows act) (hren : act.rename ρ = some act') :
    ∃ ρ', Named good ρ' (s.perform fresh act) (F.perform act') := by
  cases act with
  | bind d x =>
    obtain ⟨y, hy, rfl⟩ := Option.map_eq_some_iff.mp hren
    exact ⟨ρ, h.bind hy⟩
  | make d size =>
    cases hren
    exact ⟨_, h.make hfresh⟩
  | write a n x =>
    obtain ⟨c, hc, hren⟩ := Option.bind_eq_some_iff.mp hren
    obtain ⟨y, hy, rfl⟩ := Option.map_eq_some_iff.mp hren
    exact ⟨ρ, h.write hc hy hallow⟩
  | skip =>
    cases hren
    exact ⟨ρ, h⟩

end Store.Named

end SsaFusion
