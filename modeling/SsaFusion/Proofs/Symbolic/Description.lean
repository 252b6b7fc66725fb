import Mathlib.Data.Int.ModEq
import SsaFusion.Proofs.Flow.Forest
import SsaFusion.Proofs.Machine.Moments
import SsaFusion.Proofs.Symbolic.Meaning
import SsaFusion.Symbolic.Evolution

/-!
# Expressions that describe values

A gauge says which data are read as integers and up to multiples of what numbers are compared (`Gauge`). An expression
describes a value by a gauge if, whenever the value is defined and has a number, the two are equal so far, for every
reading of the leaves that fits the moment (`Describes`). Its atoms must be settled no later than the value: then a step
that does not compute the value leaves the expression alone as well, and it is enough to look at the steps that compute
the value (`describes_of_fresh`). Instructions keep descriptions (`describes_of_instr`) as far as arithmetic is exact
(`ExactUpTo`), which it always is up to multiples of `2 ^ 64`; a phi of a loop header is described by a recurrence whose
parts do not change in the loop, at whatever depth (`describes_header_phi`).
-/

namespace SsaFusion

theorem modEq_bmod (z : Int) : z.bmod (2 ^ 64) ≡ z [ZMOD 2 ^ 64] := by
  rw [Int.ModEq]
  exact Int.bmod_emod

theorem SymExpr.isKnown_eq_false {e : SymExpr} : e.isKnown = false ↔ e = .unknown := by simp [SymExpr.isKnown]

theorem Machine.read_of_readInt {m : Machine} {o : Operand} {a : Word} (h : m.readInt o = .ok a) :
    m.read o = .ok (.int a) := by
  obtain ⟨d, hd, h⟩ := bind_eq_ok h
  cases d <;> cases h
  exact hd

/-! ## Exact arithmetic -/

/-- What an arithmetic operation gives in words, and what it gives in integers. -/
def Machine.arithmetic? (m : Machine) : Op → Option (Word × Int)
  | .unary .neg _ x => do
    let a ← (m.readInt x).toOption
    return (-a, -a.toInt)
  | .binary op _ x y => do
    let a ← (m.readInt x).toOption
    let b ← (m.readInt y).toOption
    match op with
    | .add => return (a + b, a.toInt + b.toInt)
    | .sub => return (a - b, a.toInt - b.toInt)
    | .mul => return (a * b, a.toInt * b.toInt)
    | _ => none
  | .shift _ base cells => do
    let b ← (m.readInt cells).toOption
    let (_, a) ← (m.readPtr base).toOption
    return (a + b, a.toInt + b.toInt)
  | _ => none

/-- Up to multiples of a number, a run on some arguments calculates with integers. -/
def Func.ExactUpTo (f : Func) (args : List Word) (limit : Nat) (q : Int) : Prop :=
  ∀ k M i w z, f.moment? args limit k = some M → f.instrAt? M.block M.done = some i →
    M.machine.arithmetic? i.op = some (w, z) → w.toInt ≡ z [ZMOD q]

/-- Arithmetic is exact up to multiples of `2 ^ 64`. -/
theorem Machine.modEq_of_arithmetic? {m : Machine} {op : Op} {w : Word} {z : Int} (h : m.arithmetic? op = some (w, z)) :
    w.toInt ≡ z [ZMOD 2 ^ 64] := by
  unfold arithmetic? at h
  split at h
  · obtain ⟨a, -, h⟩ := Option.bind_eq_some_iff.mp h
    cases h
    exact Int64.toInt_neg a ▸ modEq_bmod _
  · obtain ⟨a, -, h⟩ := Option.bind_eq_some_iff.mp h
    obtain ⟨b, -, h⟩ := Option.bind_eq_some_iff.mp h
    split at h <;> cases h
    · exact Int64.toInt_add a b ▸ modEq_bmod _
    · exact Int64.toInt_sub a b ▸ modEq_bmod _
    · exact Int64.toInt_mul a b ▸ modEq_bmod _
  · obtain ⟨b, -, h⟩ := Option.bind_eq_some_iff.mp h
    obtain ⟨⟨c, a⟩, -, h⟩ := Option.bind_eq_some_iff.mp h
    cases h
    exact Int64.toInt_add a b ▸ modEq_bmod _
  · cases h

theorem Func.exactUpTo_word (f : Func) (args : List Word) (limit : Nat) : f.ExactUpTo args limit (2 ^ 64) :=
  fun _ _ _ _ _ _ _ => Machine.modEq_of_arithmetic?

/-! ## Gauges -/

/-- How data are read as integers, and up to multiples of what number they are compared. -/
structure Gauge where
  modulus : Int
  not_dvd_one : ¬modulus ∣ 1
  number? : Datum → Option Int
  number?_int : ∀ n, number? (.int n) = some n.toInt

/-- Integers are read as themselves and compared as words are; other data are not read. -/
def Gauge.word : Gauge where
  modulus := 2 ^ 64
  not_dvd_one := by decide
  number? d := d.int?.map Int64.toInt
  number?_int _ := rfl

/-- The number of a value at a moment. -/
def Moment.number? (M : Moment) (g : Gauge) (v : ValueId) : Option Int := (M.machine.env.get? v).bind g.number?

/-- A reading that has the numbers and the rounds of a moment. Leaves without a number may be read as anything. -/
def Moment.FitsIn (M : Moment) (g : Gauge) (r : Reading) : Prop :=
  r.rounds = M.rounds ∧ ∀ v z, M.number? g v = some z → r.value v = z

/-- A reading that has the integers and the rounds of a moment. Leaves that are no integers may be read as anything. -/
def Moment.Fits (M : Moment) (r : Reading) : Prop :=
  r.rounds = M.rounds ∧ ∀ v n, M.machine.env.get? v = some (.int n) → r.value v = n.toInt

theorem Moment.Fits.word {M : Moment} {r : Reading} (h : M.Fits r) : M.FitsIn .word r := by
  refine ⟨h.1, fun v z hz => ?_⟩
  obtain ⟨d, hd, hz⟩ := Option.bind_eq_some_iff.mp hz
  cases d with
  | int n =>
    cases hz
    exact h.2 v n hd
  | bool | ptr => cases hz

/-- What an atom reads stays as it is in a step. -/
def Moment.Keeps (M M' : Moment) : Atom → Prop
  | .value y => y ∉ M'.fresh
  | .round h => M'.rounds h = M.rounds h

namespace Func

/-- What an atom reads is settled on every path to a point. -/
def Settled (f : Func) (b : BlockId) (n : Nat) : Atom → Prop
  | .value y => f.AvailableBefore b n y
  | .round h => f.Dominates h b

/-- What an atom reads is settled when a value is computed. -/
def Supports (f : Func) (v : ValueId) (x : Atom) : Prop := x = .value v ∨ ∃ b n, f.DefinedAt v b n ∧ f.Settled b n x

/-- By a gauge, an expression is right about a value at a moment. -/
def RightAt (f : Func) (g : Gauge) (M : Moment) (v : ValueId) (e : SymExpr) : Prop :=
  f.AvailableBefore M.block M.done v → ∀ z, M.number? g v = some z → e.isKnown = true →
    ∀ r, M.FitsIn g r → z ≡ e.eval r [ZMOD g.modulus]

/-- By a gauge, an expression describes a value in the run on some arguments. -/
structure Describes (f : Func) (g : Gauge) (args : List Word) (limit : Nat) (v : ValueId) (e : SymExpr) : Prop where
  supports : ∀ x ∈ e.atoms, f.Supports v x
  right : ∀ k M, f.moment? args limit k = some M → f.RightAt g M v e

/-- By a gauge, an expression describes an operand wherever the operand may be read. -/
structure DescribesOperand (f : Func) (g : Gauge) (args : List Word) (limit : Nat) (o : Operand) (e : SymExpr) : Prop where
  supports : ∀ x ∈ e.atoms, ∃ v, o.var? = some v ∧ f.Supports v x
  right : ∀ k M, f.moment? args limit k = some M → Machine.Readable (f.AvailableBefore M.block M.done) o →
    ∀ d z, M.machine.read o = .ok d → g.number? d = some z → e.isKnown = true →
      ∀ r, M.FitsIn g r → z ≡ e.eval r [ZMOD g.modulus]

variable {f : Func} {g : Gauge} {args : List Word} {limit : Nat} {M M' : Moment} {v w : ValueId} {e : SymExpr} {x : Atom}
  {b d : BlockId} {n m : Nat} {r : Reading}

/-! ## Atoms -/

theorem Settled.mono (h : f.Settled d m x) (hlt : f.Earlier (d, m) (b, n)) (hb : f.Live b) : f.Settled b n x := by
  cases x with
  | value y =>
    rw [Settled, availableBefore_iff] at h ⊢
    refine h.imp_right fun ⟨c, k, hdef, hlt'⟩ => ⟨c, k, hdef, hlt'.trans hlt hb⟩
  | round t =>
    rcases hlt with hlt | ⟨rfl, _⟩
    · exact h.trans hlt.2
    · exact h

/-- The atoms of what is available are settled. -/
theorem Supports.settled (hn : f.defined.Nodup) (h : f.Supports w x) (hw : f.AvailableBefore b n w) (hb : f.Live b) :
    f.Settled b n x := by
  rcases h with rfl | ⟨d, m, hdef, hx⟩
  · exact hw
  · rw [availableBefore_iff] at hw
    obtain ⟨d', m', hdef', hlt⟩ := hw.resolve_left (not_mem_params hn hdef.mem_destsAt)
    obtain ⟨rfl, rfl⟩ := hdef.unique hn hdef'
    exact hx.mono hlt hb

theorem Supports.keeps (hn : f.defined.Nodup) (h : f.Supports v x) (hstep : M.Step f M') (hlive : f.Live M'.block)
    (hv : f.AvailableBefore M'.block M'.done v) (hold : v ∉ M'.fresh) : M.Keeps M' x := by
  rcases h with rfl | ⟨b, n, hdef, hx⟩
  · exact hold
  · have hparam := not_mem_params hn hdef.mem_destsAt
    cases x with
    | value y =>
      intro hy
      rw [Settled, availableBefore_iff] at hx
      -- what is settled before the value cannot be computed after it
      obtain ⟨m, -, hydef⟩ := hstep.definedAt_of_fresh hy
      obtain ⟨d', m', hydef', hlt⟩ := hx.resolve_left (not_mem_params hn hydef.mem_destsAt)
      obtain ⟨rfl, rfl⟩ := hydef.unique hn hydef'
      exact (hlt.trans (hstep.earlier hn hv hold hy hdef hydef) hlive).irrefl
    | round t =>
      by_contra hne
      obtain ⟨rfl, hd, hfresh⟩ := hstep.rounds hne
      rw [availableBefore_iff] at hv
      obtain ⟨b', n', hdef', hbefore⟩ := hv.resolve_left hparam
      obtain ⟨rfl, rfl⟩ := hdef.unique hn hdef'
      rcases hbefore with hbefore | ⟨rfl, hlt⟩
      · exact hbefore.1 (hbefore.2.antisymm hx (hbefore.2.live hlive))
      · exact hold (hfresh ▸ mem_fresh_phis.mpr ⟨n, hd ▸ hlt, hdef⟩)

/-- A reading of a moment, taken back to the moment before: it reads what is kept in the same way. -/
theorem exists_fits_before (hstep : M.Step f M') (hr : M'.FitsIn g r) :
    ∃ r₀, M.FitsIn g r₀ ∧ ∀ e : SymExpr, (∀ x ∈ e.atoms, M.Keeps M' x) → e.eval r₀ = e.eval r := by
  refine ⟨⟨fun v => (M.number? g v).getD (r.value v), M.rounds⟩, ⟨rfl, fun v z hv => ?_⟩, fun e he => ?_⟩
  · simp [hv]
  · refine SymExpr.eval_congr e fun x hx => ?_
    cases x with
    | round t =>
      have ht : M'.rounds t = M.rounds t := he _ hx
      simp only [Reading.at, hr.1, ht]
    | value y =>
      have hy : M'.number? g y = M.number? g y := by rw [Moment.number?, hstep.env (he (.value y) hx), ← Moment.number?]
      cases hz : M.number? g y with
      | none => simp [Reading.at, hz]
      | some z => simp [Reading.at, hz, hr.2 y z (hy.trans hz)]

/-! ## Values -/

theorem describes_leaf (v : ValueId) : f.Describes g args limit v (.leaf v) where
  supports x hx := Or.inl (by simpa [SymExpr.atoms] using hx)
  right _ _ _ _ z hz _ r hr := by
    rw [← hr.2 v z hz]
    exact .refl _

theorem describes_unknown (v : ValueId) : f.Describes g args limit v .unknown where
  supports _ hx := by cases hx
  right _ _ _ _ _ _ hk := by cases hk

theorem describes_of_not_known (hk : ¬e.isKnown = true) : f.Describes g args limit v e := by
  rw [Bool.not_eq_true, SymExpr.isKnown_eq_false] at hk
  exact hk ▸ describes_unknown v

/-- An operand has an expression, given the expressions of values. -/
def OperandHas (P : ValueId → SymExpr → Prop) : Operand → SymExpr → Prop
  | .lit (.int n), e => e = .const n
  | .lit (.bool _), e => e = .unknown
  | .var v, e => P v e

theorem OperandHas.mono {P Q : ValueId → SymExpr → Prop} {o : Operand} (h : OperandHas P o e)
    (hle : ∀ v, o = .var v → P v e → Q v e) : OperandHas Q o e := by
  cases o with
  | lit x => cases x <;> exact h
  | var v => exact hle v rfl h

theorem describesOperand_of_has {o : Operand} (h : OperandHas (f.Describes g args limit) o e) :
    f.DescribesOperand g args limit o e := by
  cases o with
  | lit x =>
    cases x with
    | int n =>
      obtain rfl : e = .const n := h
      refine ⟨fun x hx => (by cases hx), fun k M _ _ d z hd hz _ r _ => ?_⟩
      cases hd
      obtain rfl : n.toInt = z := Option.some.inj ((g.number?_int n).symm.trans hz)
      rfl
    | bool b =>
      obtain rfl : e = .unknown := h
      exact ⟨fun x hx => (by cases hx), fun _ _ _ _ _ _ _ _ hk => (by cases hk)⟩
  | var v =>
    have h : f.Describes g args limit v e := h
    refine ⟨fun x hx => ⟨v, rfl, h.supports x hx⟩, fun k M hM hv d z hd hz => h.right k M hM (hv v rfl) z ?_⟩
    simp only [Machine.read] at hd
    split at hd
    · rename_i hget
      cases hd
      rw [Moment.number?, hget]
      exact hz
    · cases hd

section Valid

variable (hf : f.Valid) (hentry : f.phisAt f.entry = [])

include hf hentry

/-- **Steps that compute the value decide.** Between them neither the value nor what the expression reads changes. -/
theorem describes_of_fresh (hdef : f.DefinedAt v b n) (hsup : ∀ x ∈ e.atoms, f.Supports v x)
    (hfresh : ∀ k M M', f.moment? args limit k = some M → M.Step f M' → v ∈ M'.fresh → f.RightAt g M v e →
      ∀ z, M'.number? g v = some z → e.isKnown = true → ∀ r, M'.FitsIn g r → z ≡ e.eval r [ZMOD g.modulus]) :
    f.Describes g args limit v e := by
  refine ⟨hsup, fun k M hM => moment?_induction (P := fun M => f.RightAt g M v e) ?_ ?_ hM⟩
  · -- nothing but the parameters is available in front of the entry
    intro hv
    rw [availableBefore_iff] at hv
    obtain ⟨d, m, _, hlt⟩ := hv.resolve_left (not_mem_params hf.once hdef.mem_destsAt)
    rcases hlt with hlt | ⟨_, hlt⟩
    · exact absurd (eq_entry_of_dominates hlt.2) hlt.1
    · simp [start, hentry] at hlt
  · intro k M M' hM hnext hbefore hv z hz hk r hr
    have hstep := Moment.step_of_next hf.once hnext
    by_cases hnew : v ∈ M'.fresh
    · exact hfresh k M M' hM hstep hnew hbefore z hz hk r hr
    · have hlive := (live_moment hf.once (moment?_succ.mpr ⟨M, hM, hnext⟩)).1
      obtain ⟨r₀, hr₀, hsame⟩ := exists_fits_before hstep hr
      rw [← hsame e fun x hx => (hsup x hx).keeps hf.once hstep hlive hv hnew]
      refine hbefore (hstep.available hv hnew) z ?_ hk r₀ hr₀
      rwa [Moment.number?, ← hstep.env hnew, ← Moment.number?]

/-- A value that an instruction computes from what is settled in front of it. -/
theorem describes_of_instr {i : Instr} (hi : f.instrAt? b n = some i) (hd : i.dest? = some v) (hphi : i.isPhi = false)
    (hsettled : ∀ x ∈ e.atoms, f.Settled b n x)
    (hright : ∀ k M (m m' : Machine), f.moment? args limit k = some M → M.block = b → M.done = n →
      m.env = M.machine.env → m.execute i.op = .ok m' → ∀ d z, m'.env.get? v = some d → g.number? d = some z →
        e.isKnown = true → ∀ r, M.FitsIn g r → z ≡ e.eval r [ZMOD g.modulus]) : f.Describes g args limit v e := by
  have hdef : f.DefinedAt v b n := ⟨i, hi, hd⟩
  refine describes_of_fresh hf hentry hdef (fun x hx => Or.inr ⟨b, n, hdef, hsettled x hx⟩) ?_
  intro k M M' hM hstep hnew _ z hz hk r hr
  obtain ⟨r₀, hr₀, hsame⟩ := exists_fits_before hstep hr
  obtain ⟨hMb, hMn, hrounds, hfresh, m, henv, hexec⟩ := hstep.executes hf.once hi hd hphi hnew
  rw [← hsame e fun x hx => ?_]
  · obtain ⟨d, hd, hz⟩ := Option.bind_eq_some_iff.mp hz
    exact hright k M m M'.machine hM hMb hMn henv hexec d z hd hz hk r₀ hr₀
  · cases x with
    | round t => exact congrFun hrounds t
    | value y =>
      intro hy
      obtain rfl : y = v := by simpa [hfresh] using hy
      have hav := hsettled _ hx
      rw [Settled, availableBefore_iff] at hav
      obtain ⟨d, m, hdef', hlt⟩ := hav.resolve_left (not_mem_params hf.once hdef.mem_destsAt)
      obtain ⟨rfl, rfl⟩ := hdef.unique hf.once hdef'
      exact hlt.irrefl

/-! ## Instructions -/

section Instr

variable {i : Instr} (hi : f.instrAt? b n = some i) (hphi : i.isPhi = false) (hb : f.Live b) {o : Operand}

include hi hphi hb

omit hentry in
theorem settled_operand (ho : o ∈ i.operands) (h : f.DescribesOperand g args limit o e) :
    ∀ x ∈ e.atoms, f.Settled b n x := by
  intro x hx
  obtain ⟨w, hw, hsup⟩ := h.supports x hx
  exact hsup.settled hf.once (readable_operand hf hi hphi hb ho w hw) hb

omit hentry in
/-- What an operand of an instruction is described by, at the moment of the instruction. -/
theorem right_operand (ho : o ∈ i.operands) (h : f.DescribesOperand g args limit o e) {k : Nat}
    (hM : f.moment? args limit k = some M) (hMb : M.block = b) (hMn : M.done = n) {m : Machine}
    (henv : m.env = M.machine.env) {d : Datum} {z : Int} (hd : m.read o = .ok d) (hz : g.number? d = some z)
    (hk : e.isKnown = true) (hr : M.FitsIn g r) : z ≡ e.eval r [ZMOD g.modulus] := by
  refine h.right k M hM ?_ d z (Machine.read_of_env henv o ▸ hd) hz hk r hr
  rw [hMb, hMn]
  exact readable_operand hf hi hphi hb ho

omit hentry in
theorem right_int_operand (ho : o ∈ i.operands) (h : f.DescribesOperand g args limit o e) {k : Nat}
    (hM : f.moment? args limit k = some M) (hMb : M.block = b) (hMn : M.done = n) {m : Machine}
    (henv : m.env = M.machine.env) {a : Word} (ha : m.readInt o = .ok a) (hk : e.isKnown = true) (hr : M.FitsIn g r) :
    a.toInt ≡ e.eval r [ZMOD g.modulus] :=
  right_operand hf hi hphi hb ho h hM hMb hMn henv (Machine.read_of_readInt ha) (g.number?_int a) hk hr

end Instr

theorem describes_assign {o : Operand} {c : Option String} (hi : f.instrAt? b n = some ⟨.assign v o, c⟩) (hb : f.Live b)
    (h : f.DescribesOperand g args limit o e) : f.Describes g args limit v e := by
  have ho : o ∈ (⟨.assign v o, c⟩ : Instr).operands := by simp [Instr.operands, Op.operands]
  refine describes_of_instr hf hentry hi rfl rfl (settled_operand hf hi rfl hb ho h) ?_
  intro k M m m' hM hMb hMn henv hexec d z hd hz hk r hr
  obtain ⟨a, ha, hexec⟩ := bind_eq_ok hexec
  cases hexec
  obtain rfl : a = d := by simpa [Machine.bind, Table.get?_insert] using hd
  exact right_operand hf hi rfl hb ho h hM hMb hMn henv ha hz hk hr

section Arithmetic

variable (hexact : f.ExactUpTo args limit g.modulus)

include hexact

omit hf hentry in
/-- What an arithmetic operation gives at its moment, in words and in integers. -/
theorem ExactUpTo.at_moment {i : Instr} {k : Nat} (hi : f.instrAt? b n = some i) (hM : f.moment? args limit k = some M)
    (hMb : M.block = b) (hMn : M.done = n) {m : Machine} (henv : m.env = M.machine.env) {a : Word} {z : Int}
    (ha : m.arithmetic? i.op = some (a, z)) : a.toInt ≡ z [ZMOD g.modulus] := by
  refine hexact k M i a z hM (by rw [hMb, hMn]; exact hi) ?_
  have hread : m.read = M.machine.read := funext (Machine.read_of_env henv)
  have hint : m.readInt = M.machine.readInt := funext fun o => by rw [Machine.readInt, Machine.readInt, hread]
  have hptr : m.readPtr = M.machine.readPtr := funext fun o => by rw [Machine.readPtr, Machine.readPtr, hread]
  unfold Machine.arithmetic? at ha ⊢
  rwa [hint, hptr] at ha

theorem describes_neg {o : Operand} {c : Option String} (hi : f.instrAt? b n = some ⟨.unary .neg v o, c⟩)
    (hb : f.Live b) (h : f.DescribesOperand g args limit o e) : f.Describes g args limit v e.negate := by
  have ho : o ∈ (⟨.unary .neg v o, c⟩ : Instr).operands := by simp [Instr.operands, Op.operands]
  by_cases hk : e.negate.isKnown = true
  · obtain ⟨hke, hval, hatoms⟩ := SymExpr.negate_exactIn hk
    refine describes_of_instr hf hentry hi rfl rfl (fun x hx => settled_operand hf hi rfl hb ho h x (hatoms hx)) ?_
    intro k M m m' hM hMb hMn henv hexec d z hd hz _ r hr
    obtain ⟨d', hd', hexec⟩ := bind_eq_ok hexec
    obtain ⟨a, ha, hd'⟩ := bind_eq_ok hd'
    cases hd'
    cases hexec
    obtain rfl : .int (-a) = d := by simpa [Machine.bind, Table.get?_insert] using hd
    obtain rfl : (-a).toInt = z := Option.some.inj ((g.number?_int _).symm.trans hz)
    rw [SymExpr.eval, hval]
    have hexact := hexact.at_moment hi hM hMb hMn henv (a := -a) (z := -a.toInt)
      (by rw [Machine.arithmetic?, ha]; rfl)
    exact hexact.trans (right_int_operand hf hi rfl hb ho h hM hMb hMn henv ha hke hr).neg
  · exact describes_of_not_known hk

/-- Sums, differences and products, given that the operator on words and the one on expressions agree. -/
theorem describes_binary {op : BinOp} {o₁ o₂ : Operand} {c : Option String} {e₁ e₂ : SymExpr}
    (hi : f.instrAt? b n = some ⟨.binary op v o₁ o₂, c⟩) (hb : f.Live b) (h₁ : f.DescribesOperand g args limit o₁ e₁)
    (h₂ : f.DescribesOperand g args limit o₂ e₂) {words : Word → Word → Word} {join : Int → Int → Int}
    (hop : ∀ m : Machine, m.binary op o₁ o₂ = m.onInts o₁ o₂ fun a b => .ok (.int (words a b)))
    (harith : ∀ (m : Machine) (a b : Word), m.readInt o₁ = .ok a → m.readInt o₂ = .ok b →
      m.arithmetic? (.binary op v o₁ o₂) = some (words a b, join a.toInt b.toInt))
    (hjoin : ∀ a b c d : Int, a ≡ c [ZMOD g.modulus] → b ≡ d [ZMOD g.modulus] → join a b ≡ join c d [ZMOD g.modulus])
    (hknown : e.isKnown = true → e₁.isKnown = true ∧ e₂.isKnown = true ∧
      (∀ v, e.evalIn v = join (e₁.evalIn v) (e₂.evalIn v)) ∧ e.atoms ⊆ e₁.atoms ++ e₂.atoms) :
    f.Describes g args limit v e := by
  have ho₁ : o₁ ∈ (⟨.binary op v o₁ o₂, c⟩ : Instr).operands := by simp [Instr.operands, Op.operands]
  have ho₂ : o₂ ∈ (⟨.binary op v o₁ o₂, c⟩ : Instr).operands := by simp [Instr.operands, Op.operands]
  by_cases hk : e.isKnown = true
  · obtain ⟨hk₁, hk₂, hval, hatoms⟩ := hknown hk
    have hsettled : ∀ x ∈ e.atoms, f.Settled b n x := fun x hx => (List.mem_append.mp (hatoms hx)).elim
      (settled_operand hf hi rfl hb ho₁ h₁ x) (settled_operand hf hi rfl hb ho₂ h₂ x)
    refine describes_of_instr hf hentry hi rfl rfl hsettled ?_
    intro k M m m' hM hMb hMn henv hexec d z hd hz _ r hr
    obtain ⟨d', hd', hexec⟩ := bind_eq_ok hexec
    rw [hop] at hd'
    obtain ⟨a₁, ha₁, hd'⟩ := bind_eq_ok hd'
    obtain ⟨a₂, ha₂, hd'⟩ := bind_eq_ok hd'
    cases hd'
    cases hexec
    obtain rfl : .int (words a₁ a₂) = d := by simpa [Machine.bind, Table.get?_insert] using hd
    obtain rfl : (words a₁ a₂).toInt = z := Option.some.inj ((g.number?_int _).symm.trans hz)
    rw [SymExpr.eval, hval]
    exact (hexact.at_moment hi hM hMb hMn henv (harith m a₁ a₂ ha₁ ha₂)).trans (hjoin _ _ _ _
      (right_int_operand hf hi rfl hb ho₁ h₁ hM hMb hMn henv ha₁ hk₁ hr)
      (right_int_operand hf hi rfl hb ho₂ h₂ hM hMb hMn henv ha₂ hk₂ hr))
  · exact describes_of_not_known hk

end Arithmetic

end Valid

/-! ## Phis of loop headers -/

/-- What an atom reads does not change in a loop. -/
def Steady (f : Func) (l : Loop) : Atom → Prop
  | .value w => w ∈ f.params ∨ ∃ d m, f.DefinedAt w d m ∧ d ∉ l.blocks
  | .round h => h ∉ l.blocks

/-- What is settled on a way into a header and does not change in the loop is settled in front of the header. -/
theorem Settled.header (hn : f.defined.Nodup) {l : Loop} (hl : l ∈ f.loops) (hx : f.Settled b n x)
    (hsteady : f.Steady l x) (hdom : ∀ d, f.Dominates d b → d ∉ l.blocks → f.Dominates d l.header) :
    f.Settled l.header 0 x := by
  cases x with
  | round t => exact hdom t hx hsteady
  | value w =>
    rw [Settled, availableBefore_iff] at hx ⊢
    refine hx.imp_right fun ⟨d, m, hdef, hlt⟩ => ⟨d, m, hdef, Or.inl ?_⟩
    obtain ⟨d', m', hdef', hout⟩ := hsteady.resolve_left (not_mem_params hn hdef.mem_destsAt)
    obtain ⟨rfl, rfl⟩ := hdef.unique hn hdef'
    have hdb : f.Dominates d b := by
      rcases hlt with hlt | ⟨rfl, _⟩
      · exact hlt.2
      · exact .refl _
    exact ⟨fun (e : d = l.header) => hout (e ▸ (isLoop_of_mem hl).header_mem), hdom d hdb hout⟩

/-- Entering a header leaves alone what is settled in front of it and does not change in the loop. -/
theorem Settled.keeps (hn : f.defined.Nodup) {l : Loop} (hl : l ∈ f.loops) (hx : f.Settled l.header 0 x)
    (hsteady : f.Steady l x) (hstep : M.Step f M') (hblock : M'.block = l.header) : M.Keeps M' x := by
  cases x with
  | round t =>
    by_contra hne
    exact hsteady ((hstep.rounds hne).1.trans hblock ▸ (isLoop_of_mem hl).header_mem)
  | value w =>
    intro hw
    obtain ⟨m, -, hdef⟩ := hstep.definedAt_of_fresh hw
    rw [Settled, availableBefore_iff] at hx
    obtain ⟨d, m', hdef', hlt⟩ := hx.resolve_left (not_mem_params hn hdef.mem_destsAt)
    obtain ⟨rfl, rfl⟩ := hdef.unique hn hdef'
    rcases hlt with hlt | ⟨_, hlt⟩
    · exact hlt.1 hblock
    · omega

theorem Settled.le (h : f.Settled b n x) (hle : n ≤ m) : f.Settled b m x := by
  cases x with
  | round t => exact h
  | value w => exact h.imp_right fun ⟨k, hk, hdef⟩ => ⟨k, by omega, hdef⟩

/-- A block outside a loop that dominates a block of it dominates its header. -/
theorem dominates_header_of_outside {l : Loop} (hl : IsLoop f l) (hdom : f.Dominates d b) (hb : b ∈ l.blocks)
    (hout : d ∉ l.blocks) : f.Dominates d l.header := by
  rw [dominates_iff_doms]
  intro haround
  refine dominates_iff_doms.mp hdom (haround.trans ?_)
  exact (hl.reaches_from_header hb).mono fun c hc e => hout (e ▸ hc)

/-- The sources of a header phi that has one from outside the loop and one from inside. -/
theorem splitSources_spec {l : Loop} {sources : List (BlockId × Operand)} {start next : Operand}
    (h : Subject.splitSources l sources = some (start, next)) :
    ∃ p q, p ∉ l.blocks ∧ q ∈ l.blocks ∧ ∀ s, s ∈ sources ↔ s = (p, start) ∨ s = (q, next) := by
  unfold Subject.splitSources at h
  split at h
  · rename_i p x q y
    split at h
    · rename_i hp hq
      cases h
      exact ⟨p, q, by simpa [Loop.contains] using hp, by simpa [Loop.contains] using hq, fun s => by simp⟩
    · rename_i hp hq
      cases h
      exact ⟨q, p, by simpa [Loop.contains] using hq, by simpa [Loop.contains] using hp, fun s => by simp [or_comm]⟩
    · cases h
  · cases h

/-- A value has a number if something else that has one is described as the value plus a step. Otherwise the value could
be read as anything. -/
theorem exists_number_of_described {e' : SymExpr} {z : Int} (hks : (e'.minus (.leaf v)).isKnown = true)
    (hv : .value v ∉ (e'.minus (.leaf v)).atoms) (hr : M.FitsIn g r)
    (h : ∀ r, M.FitsIn g r → z ≡ e'.eval r [ZMOD g.modulus]) : ∃ y, M.number? g v = some y := by
  by_contra hnone
  obtain ⟨-, -, hminus, -⟩ := SymExpr.minus_exactIn hks
  let r' : Reading := { r with value := Function.update r.value v (r.value v + 1) }
  have hfits : M.FitsIn g r' := by
    refine ⟨hr.1, fun w y hw => ?_⟩
    have hne : w ≠ v := fun e => hnone ⟨y, e ▸ hw⟩
    exact (Function.update_of_ne hne ..).trans (hr.2 w y hw)
  have hstep : (e'.minus (.leaf v)).eval r' = (e'.minus (.leaf v)).eval r := by
    refine SymExpr.eval_congr _ fun x hx => ?_
    cases x with
    | round t => rfl
    | value w =>
      have hne : w ≠ v := fun e => hv (e ▸ hx)
      exact Function.update_of_ne hne ..
  have hshift : e'.eval r' = e'.eval r + 1 := by
    rw [SymExpr.eval, SymExpr.eval, hminus, hminus] at hstep
    have hleaf : SymExpr.evalIn r'.valuation (.leaf v) = SymExpr.evalIn r.valuation (.leaf v) + 1 := Function.update_self ..
    rw [SymExpr.eval, SymExpr.eval]
    omega
  have hcongr : e'.eval r ≡ e'.eval r + 1 [ZMOD g.modulus] := (h r hr).symm.trans (hshift ▸ h r' hfits)
  rw [Int.modEq_iff_dvd, add_sub_cancel_left] at hcongr
  exact g.not_dvd_one hcongr

/-- What is described as a value plus a step is the value plus the step. -/
theorem DescribesOperand.grows {o : Operand} {e' : SymExpr} (h : f.DescribesOperand g args limit o e')
    (hks : (e'.minus (.leaf v)).isKnown = true) (hv : .value v ∉ (e'.minus (.leaf v)).atoms) {k : Nat}
    (hM : f.moment? args limit k = some M) (ho : Machine.Readable (f.AvailableBefore M.block M.done) o) {d : Datum} {z : Int}
    (hd : M.machine.read o = .ok d) (hz : g.number? d = some z) (hr : M.FitsIn g r) :
    ∃ y, M.number? g v = some y ∧ z ≡ y + (e'.minus (.leaf v)).eval r [ZMOD g.modulus] := by
  obtain ⟨hke, -, hminus, -⟩ := SymExpr.minus_exactIn hks
  have hright := h.right k M hM ho d z hd hz hke
  obtain ⟨y, hy⟩ := exists_number_of_described hks hv hr hright
  have hleaf : SymExpr.evalIn r.valuation (.leaf v) = y := hr.2 v y hy
  have hsum : e'.eval r = y + (e'.minus (.leaf v)).eval r := by
    rw [SymExpr.eval, SymExpr.eval, hminus, hleaf]
    ring
  exact ⟨y, hy, hsum ▸ hright r hr⟩

section Header

variable (hf : f.Valid) (hentry : f.phisAt f.entry = []) {l : Loop} (hl : l ∈ f.loops) {i : Instr}
  (hi : f.instrAt? l.header n = some i) {sources : List (BlockId × Operand)} (hop : i.op = .phi v sources)

include hf hi hop

theorem header_phi_mem : i ∈ f.phisAt l.header := by
  have hmem := List.mem_of_getElem? hi
  rw [← phisAt_append_bodyAt, List.mem_append] at hmem
  refine hmem.resolve_right fun hbody => ?_
  have hphi := hf.phisFirst l.header i hbody
  rw [Instr.isPhi, hop] at hphi
  cases hphi

theorem header_phi_index : n < (f.phisAt l.header).length := by
  have hdef : v ∈ (f.phisAt l.header).filterMap Instr.dest? :=
    List.mem_filterMap.mpr ⟨i, header_phi_mem hf hi hop, by rw [Instr.dest?, hop]; rfl⟩
  obtain ⟨m, hm, hdef⟩ := mem_fresh_phis.mp hdef
  have := (DefinedAt.unique hf.once ⟨i, hi, by rw [Instr.dest?, hop]; rfl⟩ hdef).2
  omega

/-- A header phi is computed by entering the header. -/
theorem edge_of_fresh_phi {k : Nat} (hM : f.moment? args limit k = some M) (hstep : M.Step f M') (hv : v ∈ M'.fresh) :
    M'.block = l.header ∧ f.instrAt? M.block M.done = none ∧ l.header ∈ f.successors M.block ∧
      M'.rounds = f.tally M.rounds M.block l.header ∧
      ∃ s d, s ∈ sources ∧ s.1 = M.block ∧ M.machine.read s.2 = .ok d ∧ M'.machine.env.get? v = some d := by
  have hdef : f.DefinedAt v l.header n := ⟨i, hi, by rw [Instr.dest?, hop]; rfl⟩
  obtain ⟨m, hm, hdef'⟩ := hstep.definedAt_of_fresh hv
  obtain ⟨hblock, rfl⟩ := hdef.unique hf.once hdef'
  have hindex := header_phi_index hf hi hop
  cases hstep with
  | instr hj _ _ hb hd _ hfresh =>
    -- the instructions that are executed stand behind the phis
    have hlive := (live_moment hf.once hM).2
    obtain ⟨hMb, rfl⟩ := hdef.unique hf.once ⟨_, hj, by simpa [hfresh] using hv⟩
    rw [← hMb] at hlive
    omega
  | edge hlast hedge _ hr _ _ hbound =>
    rw [← hblock] at hedge hr hbound
    obtain ⟨s, d, hfind, hread, hget⟩ := hbound i (header_phi_mem hf hi hop) v sources hop
    exact ⟨hblock.symm, hlast, hedge, hr, s, d, List.mem_of_find?_eq_some hfind,
      by simpa using List.find?_some hfind, hread, hget⟩

/-- What a source of a phi reads is available at the end of its block. -/
theorem readable_source (hb : f.Live l.header) {s : BlockId × Operand} (hs : s ∈ sources) (hlive : f.Live s.1) :
    Machine.Readable (f.AvailableOut s.1) s.2 := by
  have hok := hf.phis l.header hb i (mem_instrsOf_of_phi (header_phi_mem hf hi hop)) sources
    (by rw [Instr.sources?, hop]; rfl)
  exact hok.reads s hs hlive

theorem settled_source (hb : f.Live l.header) {s : BlockId × Operand} (hs : s ∈ sources) (hlive : f.Live s.1)
    (h : f.DescribesOperand g args limit s.2 e) : ∀ x ∈ e.atoms, f.Settled s.1 (f.instrsOf s.1).length x := by
  intro x hx
  obtain ⟨w, hw, hsup⟩ := h.supports x hx
  refine hsup.settled hf.once ?_ hlive
  exact (availableBefore_end (List.getElem?_eq_none (Nat.le_refl _))).mpr (readable_source hf hi hop hb hs hlive w hw)

include hl

/-- The only way into the header from outside the loop dominates it. -/
theorem dominates_header_of_way_in (hne : l.header ≠ f.entry) {start next : Operand} {p q : BlockId} (hq : q ∈ l.blocks)
    (hsources : ∀ s, s ∈ sources ↔ s = (p, start) ∨ s = (q, next)) : f.Dominates p l.header := by
  have hloop := isLoop_of_mem hl
  refine dominates_of_into hne fun c hc hedge => ?_
  have hok := hf.phis l.header hloop.live i (mem_instrsOf_of_phi (header_phi_mem hf hi hop)) sources
    (by rw [Instr.sources?, hop]; rfl)
  have hpos : 0 < sources.countP (·.1 == c) := by rw [hok.once c hc hedge]; omega
  obtain ⟨s, hs, hsc⟩ := List.countP_pos_iff.mp hpos
  obtain rfl : s.1 = c := by simpa using hsc
  rcases (hsources s).mp hs with rfl | rfl
  · exact Or.inl (.refl _)
  · exact Or.inr (hloop.dominates_of_mem hq)

/-- The phi itself changes in the loop. -/
theorem not_steady_header_phi : ¬f.Steady l (.value v) := by
  have hdef : f.DefinedAt v l.header n := ⟨i, hi, by rw [Instr.dest?, hop]; rfl⟩
  intro hsteady
  obtain ⟨d, m, hdef', hout⟩ := hsteady.resolve_left (not_mem_params hf.once hdef.mem_destsAt)
  obtain ⟨rfl, -⟩ := hdef.unique hf.once hdef'
  exact hout (isLoop_of_mem hl).header_mem

section Recurrence

include hentry

variable {start next : Operand} (hsplit : Subject.splitSources l sources = some (start, next)) {a e' : SymExpr}
  (hstart : f.DescribesOperand g args limit start a) (hnext : f.DescribesOperand g args limit next e')
  (hks : (e'.minus (.leaf v)).isKnown = true)
  (hsteady : ∀ x, x ∈ a.atoms ∨ x ∈ (e'.minus (.leaf v)).atoms → f.Steady l x)

include hsplit hstart hnext hks hsteady

/-- What the phi starts with and grows by is settled in front of the header. -/
theorem settled_recurrence : ∀ x, x ∈ a.atoms ∨ x ∈ (e'.minus (.leaf v)).atoms → f.Settled l.header 0 x := by
  have hloop := isLoop_of_mem hl
  obtain ⟨p, q, -, hq, hsources⟩ := splitSources_spec hsplit
  rintro x (hx | hx)
  · have hne : l.header ≠ f.entry := fun e => by
      have hmem := header_phi_mem hf hi hop
      rw [e, hentry] at hmem
      cases hmem
    have hpdom := dominates_header_of_way_in hf hl hi hop hne hq hsources
    have hend := settled_source hf hi hop hloop.live ((hsources _).mpr (Or.inl rfl)) (hpdom.live hloop.live) hstart x hx
    exact hend.header hf.once hl (hsteady x (Or.inl hx)) fun d hd _ => hd.trans hpdom
  · have hxe : x ∈ e'.atoms := by
      refine (List.mem_append.mp ((SymExpr.minus_exactIn hks).2.2.2 hx)).resolve_right fun hleaf => ?_
      obtain rfl : x = .value v := by simpa [SymExpr.atoms] using hleaf
      exact not_steady_header_phi hf hl hi hop (hsteady _ (Or.inr hx))
    have hend := settled_source hf hi hop hloop.live ((hsources _).mpr (Or.inr rfl)) (hloop.live_of_mem hq) hnext x hxe
    exact hend.header hf.once hl (hsteady x (Or.inr hx)) fun d hd hout => dominates_header_of_outside hloop hd hq hout

/-- **Recurrences.** A phi of a loop header that comes back as itself plus a step is described by the recurrence from
its start, if neither the start nor the step reads anything that changes in the loop. -/
theorem describes_header_phi (hka : a.isKnown = true) :
    f.Describes g args limit v (SymExpr.recurrence a (e'.minus (.leaf v)) l.header) := by
  have hloop := isLoop_of_mem hl
  have hdef : f.DefinedAt v l.header n := ⟨i, hi, by rw [Instr.dest?, hop]; rfl⟩
  have hsettled := settled_recurrence hf hentry hl hi hop hsplit hstart hnext hks hsteady
  obtain ⟨p, q, hp, hq, hsources⟩ := splitSources_spec hsplit
  refine describes_of_fresh hf hentry hdef (fun x hx => Or.inr ⟨l.header, n, hdef, ?_⟩) ?_
  · by_cases hk : (SymExpr.recurrence a (e'.minus (.leaf v)) l.header).isKnown = true
    · rcases List.mem_cons.mp ((SymExpr.recurrence_exactIn hk).2.2.2 hx) with rfl | hx
      · exact .refl _
      · exact (hsettled x (List.mem_append.mp hx)).le (Nat.zero_le n)
    · rw [Bool.not_eq_true, SymExpr.isKnown_eq_false] at hk
      rw [hk] at hx
      cases hx
  · intro k M M' hM hstep hnew hbefore z hz hk r hr
    obtain ⟨hblock, hlast, hedge, hrounds, s, d, hs, hsM, hread, hget⟩ := edge_of_fresh_phi hf hi hop hM hstep hnew
    have hz : g.number? d = some z := by rwa [Moment.number?, hget] at hz
    have hreadable : Machine.Readable (f.AvailableBefore M.block M.done) s.2 := fun w hw =>
      (availableBefore_end hlast).mpr
        (hsM ▸ readable_source hf hi hop hloop.live hs (hsM ▸ (live_moment hf.once hM).1) w hw)
    -- neither the start nor the step changes on the way into the header
    obtain ⟨r₀, hr₀, hsame⟩ := exists_fits_before hstep hr
    have hkeeps : ∀ x, x ∈ a.atoms ∨ x ∈ (e'.minus (.leaf v)).atoms → M.Keeps M' x :=
      fun x hx => (hsettled x hx).keeps hf.once hl (hsteady x hx) hstep hblock
    have ha := hsame a fun x hx => hkeeps x (Or.inl hx)
    have hst := hsame (e'.minus (.leaf v)) fun x hx => hkeeps x (Or.inr hx)
    have heval : ∀ r, SymExpr.eval r (.recurrence a (e'.minus (.leaf v)) l.header) =
        a.eval r + r.rounds l.header * (e'.minus (.leaf v)).eval r :=
      fun r => (SymExpr.recurrence_exactIn hk).2.2.1 r.valuation
    have hcount : r.rounds l.header = if l.contains M.block then M.rounds l.header + 1 else 0 := by
      rw [hr.1, hrounds, tally_header hl]
    rw [heval, hcount, ← ha, ← hst]
    rcases (hsources s).mp hs with rfl | rfl
    · -- control comes from outside
      have hout : l.contains M.block = false := by simpa [Loop.contains, ← hsM] using hp
      simpa [hout] using hstart.right k M hM hreadable d z hread hz hka r₀ hr₀
    · -- control comes back
      have hin : l.contains M.block = true := by simpa [Loop.contains, ← hsM] using hq
      have hv : Atom.value v ∉ (e'.minus (.leaf v)).atoms :=
        fun hx => not_steady_header_phi hf hl hi hop (hsteady _ (Or.inr hx))
      obtain ⟨y, hy, hgrows⟩ := hnext.grows hks hv hM hreadable hread hz hr₀
      have hav : f.AvailableBefore M.block M.done v := by
        rw [availableBefore_end hlast]
        exact Or.inr ⟨l.header, hsM ▸ hloop.dominates_of_mem hq, hdef.mem_destsAt⟩
      have hold := hbefore hav y hy hk r₀ hr₀
      rw [heval, hr₀.1] at hold
      rw [if_pos hin]
      calc z ≡ y + (e'.minus (.leaf v)).eval r₀ [ZMOD g.modulus] := hgrows
        _ ≡ a.eval r₀ + M.rounds l.header * (e'.minus (.leaf v)).eval r₀ + (e'.minus (.leaf v)).eval r₀ [ZMOD g.modulus] :=
          hold.add_right _
        _ = a.eval r₀ + (M.rounds l.header + 1 : Nat) * (e'.minus (.leaf v)).eval r₀ := by push_cast; ring

end Recurrence

end Header

end Func

end SsaFusion
