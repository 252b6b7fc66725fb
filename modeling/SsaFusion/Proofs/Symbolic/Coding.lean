import Mathlib.Data.Nat.Pairing
import SsaFusion.Proofs.Symbolic.Evolution
import SsaFusion.Proofs.Symbolic.TripCount

/-!
# Exact runs

In a run without wrap-around the careful analysis is right without any modulus, and not about integers only: every datum has an
integer code of its own (`Datum.code_injective`), an integer is its own code, and the code of what a value holds is the value of
its expression at the moment (`code_eq_eval`). Comparisons decide by codes (`Machine.binary_comparison`).
-/

namespace SsaFusion

/-! ## Data as integers -/

/-- Every datum as an integer: words are their own codes, and what is no word lies above them. -/
def Datum.code : Datum → Int
  | .int n => n.toInt
  | .bool b => 2 ^ 63 + b.toNat
  | .ptr a n => 2 ^ 63 + 2 + Nat.pair a n.toBitVec.toNat

theorem Datum.code_injective : Function.Injective Datum.code := by
  have hword : ∀ n : Word, n.toInt < 2 ^ 63 := fun n => n.toInt_lt
  have hbool : ∀ b : Bool, b.toNat < 2 := fun b => b.toNat_lt
  intro x y h
  cases x with
  | int n =>
    have := hword n
    cases y <;> simp only [code] at h
    · rw [Int64.toInt_inj.mp h]
    all_goals omega
  | bool b =>
    have := hbool b
    cases y <;> simp only [code] at h
    · rename_i n
      have := hword n
      omega
    · rename_i c
      have heq : b.toNat = c.toNat := by omega
      cases b <;> cases c <;> simp at heq ⊢
    · omega
  | ptr a n =>
    cases y <;> simp only [code] at h
    · rename_i m
      have := hword m
      omega
    · rename_i c
      have := hbool c
      omega
    · rename_i c m
      have heq : Nat.pair a n.toBitVec.toNat = Nat.pair c m.toBitVec.toNat := by omega
      obtain ⟨rfl, hbits⟩ := Nat.pair_eq_pair.mp heq
      rw [Int64.toBitVec_inj.mp (BitVec.eq_of_toNat_eq hbits)]

/-- A comparison decides by the codes of what it compares. -/
theorem Machine.binary_comparison {m : Machine} {op : BinOp} (hop : op.isComparison = true) {x y : Operand} {z : Datum}
    (h : m.binary op x y = .ok z) :
    ∃ a b, m.read x = .ok a ∧ m.read y = .ok b ∧ z = .bool (op.holds a.code b.code) := by
  have hints : ∀ k : Word → Word → Bool, m.onInts x y (fun a b => .ok (.bool (k a b))) = .ok z →
      (∀ a b : Word, k a b = op.holds a.toInt b.toInt) →
      ∃ a b, m.read x = .ok a ∧ m.read y = .ok b ∧ z = .bool (op.holds a.code b.code) := by
    intro k h hk
    obtain ⟨a, ha, h⟩ := bind_eq_ok h
    obtain ⟨b, hb, h⟩ := bind_eq_ok h
    cases h
    exact ⟨_, _, read_of_readInt ha, read_of_readInt hb, by rw [hk]; rfl⟩
  have hequal : ∀ c, m.equal x y = .ok c → ∃ a b, m.read x = .ok a ∧ m.read y = .ok b ∧ c = decide (a.code = b.code) := by
    intro c h
    obtain ⟨a, ha, h⟩ := bind_eq_ok h
    obtain ⟨b, hb, h⟩ := bind_eq_ok h
    refine ⟨a, b, ha, hb, ?_⟩
    rw [Bool.eq_iff_iff, decide_eq_true_eq, Datum.code_injective.eq_iff]
    cases a <;> cases b <;> cases h <;> simp
  cases op with
  | lt => exact hints _ h fun a b => by simp [BinOp.holds, Int64.lt_iff_toInt_lt]
  | le => exact hints _ h fun a b => by simp [BinOp.holds, Int64.le_iff_toInt_le]
  | gt => exact hints _ h fun a b => by simp [BinOp.holds, Int64.lt_iff_toInt_lt]
  | ge => exact hints _ h fun a b => by simp [BinOp.holds, Int64.le_iff_toInt_le]
  | eq =>
    obtain ⟨c, hc, h⟩ := bind_eq_ok h
    cases h
    obtain ⟨a, b, ha, hb, rfl⟩ := hequal c hc
    exact ⟨a, b, ha, hb, rfl⟩
  | ne =>
    obtain ⟨c, hc, h⟩ := bind_eq_ok h
    cases h
    obtain ⟨a, b, ha, hb, rfl⟩ := hequal c hc
    exact ⟨a, b, ha, hb, by simp [BinOp.holds]⟩
  | _ => cases hop

/-! ## Codes and expressions -/

/-- Every datum is read as its code, and codes are compared as they are. -/
def Gauge.exact : Gauge where
  modulus := 0
  not_dvd_one := by decide
  number? d := some d.code
  number?_int _ := rfl

/-- The reading of a moment by codes. -/
def Moment.coded (M : Moment) : Reading where
  value v := ((M.machine.env.get? v).map Datum.code).getD 0
  rounds := M.rounds

theorem Moment.fitsIn_coded (M : Moment) : M.FitsIn .exact M.coded := by
  refine ⟨rfl, fun v z hz => ?_⟩
  obtain ⟨d, hd, hz⟩ := Option.bind_eq_some_iff.mp hz
  cases hz
  simp [coded, hd]

/-- The careful analysis gives a value this expression. -/
def Func.CarefulOf (f : Func) (v : ValueId) (e : SymExpr) : Prop := (Snapshot.of f).carefulExprOf? v = some e

/-- A run without wrap-around, of a function that the careful analysis understands. -/
structure Func.ExactRun (f : Func) (args : List Word) (limit : Nat) : Prop where
  valid : f.Valid
  entry : f.phisAt f.entry = []
  live : ∀ b, b < f.blocks.length → f.Live b
  exact : f.ExactUpTo args limit 0

namespace Func.ExactRun

open Func (OperandHas)

variable {f : Func} {args : List Word} {limit k : Nat} {M : Moment} {v : ValueId} {e : SymExpr} {o : Operand}
variable (X : f.ExactRun args limit)

include X

theorem describes (h : f.CarefulOf v e) : f.Describes .exact args limit v e :=
  Subject.carefulExprOf?_describes X.valid X.entry X.exact X.live h

theorem describesOperand (h : OperandHas f.CarefulOf o e) : f.DescribesOperand .exact args limit o e :=
  describesOperand_of_has (h.mono fun _ _ h => X.describes h)

/-- **The code of what an operand holds is the value of its careful expression at the moment.** -/
theorem code_eq_eval (h : OperandHas f.CarefulOf o e) (hk : e.isKnown = true) (hM : f.moment? args limit k = some M)
    (ho : Machine.Readable (f.AvailableBefore M.block M.done) o) {d : Datum} (hd : M.machine.read o = .ok d) :
    d.code = e.eval M.coded :=
  Int.modEq_zero_iff.mp ((X.describesOperand h).right k M hM ho d d.code hd rfl hk M.coded M.fitsIn_coded)

/-- What an operand's careful expression is made of is settled where the operand may be read. -/
theorem settled (h : OperandHas f.CarefulOf o e) {b : BlockId} {n : Nat} (ho : Machine.Readable (f.AvailableBefore b n) o)
    (hb : f.Live b) : ∀ x ∈ e.atoms, f.Settled b n x := by
  intro x hx
  obtain ⟨w, hw, hsup⟩ := (X.describesOperand h).supports x hx
  exact hsup.settled X.valid.once (ho w hw) hb

theorem value_code (h : f.CarefulOf v e) (hk : e.isKnown = true) (hM : f.moment? args limit k = some M)
    (hav : f.AvailableBefore M.block M.done v) {d : Datum} (hd : M.machine.env.get? v = some d) : d.code = e.eval M.coded := by
  refine X.code_eq_eval (o := .var v) h hk hM (fun w hw => ?_) ?_
  · cases hw
    exact hav
  · simp only [Machine.read, hd]

theorem settled_value (h : f.CarefulOf v e) {b : BlockId} {n : Nat} (hav : f.AvailableBefore b n v) (hb : f.Live b) :
    ∀ x ∈ e.atoms, f.Settled b n x :=
  fun x hx => ((X.describes h).supports x hx).settled X.valid.once hav hb

end Func.ExactRun

end SsaFusion
