import SsaFusion.Fusion.Snapshot
import SsaFusion.Proofs.Flow.Loop
import SsaFusion.Proofs.Symbolic.Meaning

/-!
# Trip counts

A rotated loop runs its body, tests, and runs it again while the test holds (`Rotated`). The loops whose trip count is
known test `a + k * s` against a bound `n` after round `k`, and what they have in common is how the test relates to the
count: an ordering holds after round `k` exactly if `k + 1` is below the count, and `≠` exactly if `k + 1` is not the
count (`countOf_spec`). The first alone gives the number of runs (`runsExactly_of_lt`), the second too unless the count
lies behind the start (`runs_of_ne`).

What the latch compares and where it goes from there is normalised before it is counted; `exitTest_spec` says that the
normalised test holds exactly if the latch, as it stands, goes back to the header.
-/

namespace SsaFusion

/-! ## Rotated loops -/

/-- How often a loop runs its body from a round on, if it tests after each round whether there is another. -/
inductive Rotated (again : Nat → Prop) : (round runs : Nat) → Prop
  | stop {k : Nat} : ¬again k → Rotated again k 1
  | more {k m : Nat} : again k → Rotated again (k + 1) m → Rotated again k (m + 1)

namespace Rotated

variable {again : Nat → Prop} {k m n : Nat}

theorem unique (h : Rotated again k m) (h' : Rotated again k n) : m = n := by
  induction h generalizing n with
  | stop hno =>
    cases h' with
    | stop _ => rfl
    | more hyes _ => exact absurd hyes hno
  | more hyes _ ih =>
    cases h' with
    | stop hno => exact absurd hyes hno
    | more _ h' => rw [ih h']

/-- The loop runs up to the first round whose test fails. -/
theorem of_first (hyes : ∀ j < m, again (k + j)) (hno : ¬again (k + m)) : Rotated again k (m + 1) := by
  induction m generalizing k with
  | zero => exact .stop hno
  | succ m ih =>
    have hshift : ∀ j, k + 1 + j = k + (j + 1) := by omega
    refine .more (hyes 0 (Nat.succ_pos m)) (ih (fun j hj => ?_) ?_)
    · rw [hshift]
      exact hyes (j + 1) (Nat.succ_lt_succ hj)
    · rw [hshift]
      exact hno

theorem exists_stop (h : Rotated again k m) : ∃ j, ¬again j := by
  induction h with
  | stop hno => exact ⟨_, hno⟩
  | more _ _ ih => exact ih

end Rotated

/-- A rotated loop runs its body exactly the given number of times. -/
def RunsExactly (again : Nat → Prop) (count : Int) : Prop := ∃ m : Nat, (m : Int) = count ∧ ∀ k, Rotated again 0 k ↔ k = m

/-- A rotated loop never ends. -/
def RunsForever (again : Nat → Prop) : Prop := ∀ m, ¬Rotated again 0 m

section

variable {again : Nat → Prop} {count : Int}

theorem runsExactly_of_first {m : Nat} (hyes : ∀ j < m, again j) (hno : ¬again m) : RunsExactly again (m + 1) := by
  have hrun : Rotated again 0 (m + 1) :=
    .of_first (fun j hj => by simpa using hyes j hj) (by simpa using hno)
  refine ⟨m + 1, by omega, fun k => ⟨fun hk => hk.unique hrun, ?_⟩⟩
  rintro rfl
  exact hrun

theorem runsExactly_of_lt (h : ∀ k : Nat, again k ↔ (k : Int) + 1 < count) : RunsExactly again (max 1 count) := by
  obtain ⟨m, hm⟩ : ∃ m : Nat, (m : Int) + 1 = max 1 count := ⟨(max 1 count - 1).toNat, by omega⟩
  rw [← hm]
  refine runsExactly_of_first (fun j hj => (h j).mpr (by omega)) fun hagain => ?_
  have := (h m).mp hagain
  omega

theorem runs_of_ne (h : ∀ k : Nat, again k ↔ (k : Int) + 1 ≠ count) :
    (1 ≤ count → RunsExactly again count) ∧ (count < 1 → RunsForever again) := by
  constructor
  · intro hcount
    obtain ⟨m, hm⟩ : ∃ m : Nat, (m : Int) + 1 = count := ⟨(count - 1).toNat, by omega⟩
    rw [← hm] at h ⊢
    exact runsExactly_of_first (fun j hj => (h j).mpr (by omega)) fun hagain => (h m).mp hagain rfl
  · intro hcount m hrun
    obtain ⟨j, hno⟩ := hrun.exists_stop
    exact hno ((h j).mpr (by omega))

end

/-! ## Comparisons of integers -/

namespace BinOp

/-- What a comparison says of two integers; the other operators compare nothing. -/
def holds (x y : Int) : BinOp → Bool
  | eq => decide (x = y)
  | ne => decide (x ≠ y)
  | lt => decide (x < y)
  | le => decide (x ≤ y)
  | gt => decide (y < x)
  | ge => decide (y ≤ x)
  | _ => false

theorem holds_swapped (op : BinOp) (x y : Int) : op.swapped.holds y x = op.holds x y := by
  cases op <;> simp [swapped, holds, eq_comm]

theorem holds_negated {op op' : BinOp} (h : op.negated? = some op') (x y : Int) : op'.holds x y = !op.holds x y := by
  rw [Bool.eq_iff_iff]
  cases op <;> cases h <;> simp [holds]

end BinOp

/-! ## The latch as it stands -/

/-- The branch of a block on a binary operation: the operator with its operands, and where control goes. -/
structure CompareBranch where
  op : BinOp
  left : Operand
  right : Operand
  onTrue : BlockId
  onFalse : BlockId

namespace CompareBranch

/-- The latch of a loop ends in a branch on the result of an operation. -/
def IsLatchOf (b : CompareBranch) (f : Func) (l : Loop) : Prop :=
  ∃ latch c d, l.latch = some latch ∧ f.term? latch = some (.branch (.var c) b.onTrue b.onFalse) ∧
    f.definingOp? c = some (.binary b.op d b.left b.right)

/-- Where control goes when the operands are two integers. -/
def goesTo (b : CompareBranch) (x y : Int) : BlockId := if b.op.holds x y then b.onTrue else b.onFalse

/-- Control goes to a block when one operand is `x` and the other `n`, the left one first unless they are exchanged. -/
def Repeats (b : CompareBranch) (header : BlockId) (exchanged : Bool) (x n : Int) : Prop :=
  (if exchanged then b.goesTo n x else b.goesTo x n) = header

/-- A latch with a way out does not go back on both answers. -/
theorem IsLatchOf.leaves {b : CompareBranch} {f : Func} {l : Loop} (hb : b.IsLatchOf f l) (hl : IsLoop f l)
    (hexit : l.exiting = l.latch) : b.onTrue ≠ l.header ∨ b.onFalse ≠ l.header := by
  obtain ⟨latch, c, d, hlatch, hterm, _⟩ := hb
  rw [hlatch, Loop.exiting, Option.map_eq_some_iff] at hexit
  obtain ⟨⟨u, w⟩, hedge, rfl⟩ := hexit
  obtain ⟨_, hw, hwout, _⟩ := hl.exitEdge_spec hedge
  have hne : w ≠ l.header := fun e => hwout (e ▸ hl.header_mem)
  rw [Func.successors, hterm, Option.map_some, Option.getD_some] at hw
  rcases mem_targets_branch.mp hw with rfl | rfl
  · exact Or.inl hne
  · exact Or.inr hne

/-- A branch that goes to the header on one answer only goes there exactly if that is the answer. -/
theorem goesTo_eq_header {b : CompareBranch} {op : BinOp} {header : BlockId}
    (hback : b.onTrue = header ∧ op = b.op ∨ b.onFalse = header ∧ b.op.negated? = some op)
    (hout : b.onTrue ≠ header ∨ b.onFalse ≠ header) (x y : Int) : b.goesTo x y = header ↔ op.holds x y = true := by
  unfold goesTo
  rcases hback with ⟨htrue, rfl⟩ | ⟨hfalse, hneg⟩
  · have hfalse := hout.resolve_left (not_not.mpr htrue)
    cases b.op.holds x y <;> simp [htrue, hfalse]
  · have htrue := hout.resolve_right (not_not.mpr hfalse)
    rw [BinOp.holds_negated hneg]
    cases b.op.holds x y <;> simp [htrue, hfalse]

end CompareBranch

/-- The recurrence that a test is about. -/
def ExitTest.tested (t : ExitTest) (header : BlockId) : SymExpr := .recur t.start t.step header

namespace Subject

open SymExpr

variable {s : Subject} {l : Loop} {memo memo' : Memo} {t : ExitTest}

/-- The comparison that lets a loop go on is that of the latch, negated if the way back is the one on false. -/
theorem latchTest?_spec {op : BinOp} {x y : Operand} (h : s.latchTest? l = some (op, x, y)) :
    ∃ b : CompareBranch, b.IsLatchOf s.func l ∧ b.op.isComparison = true ∧ l.exiting = l.latch ∧ b.left = x ∧ b.right = y ∧
      (b.onTrue = l.header ∧ op = b.op ∨ b.onFalse = l.header ∧ b.op.negated? = some op) := by
  unfold latchTest? at h
  obtain ⟨latch, hlatch, h⟩ := Option.bind_eq_some_iff.mp h
  obtain ⟨_, hexiting, h⟩ := Option.bind_eq_some_iff.mp h
  split at h
  · rename_i c onTrue onFalse hterm
    split at h
    · rename_i op' d x' y' hop
      obtain ⟨_, hcompares, h⟩ := Option.bind_eq_some_iff.mp h
      have hcompares : op'.isComparison = true := by simpa [guard] using hcompares
      have hb : CompareBranch.IsLatchOf ⟨op', x', y', onTrue, onFalse⟩ s.func l := ⟨latch, c, d, hlatch, hterm, hop⟩
      have hexit : l.exiting = l.latch := by
        rw [hlatch]
        simpa [guard] using hexiting
      split at h
      · rename_i htrue
        cases h
        exact ⟨_, hb, hcompares, hexit, rfl, rfl, Or.inl ⟨htrue, rfl⟩⟩
      · split at h
        · rename_i hfalse
          obtain ⟨op'', hneg, h⟩ := Option.map_eq_some_iff.mp h
          cases h
          exact ⟨_, hb, hcompares, hexit, rfl, rfl, Or.inr ⟨hfalse, hneg⟩⟩
        · cases h
    · cases h
  · cases h

theorem eq_recur_of_ownRecur? {e a d : SymExpr} (h : ownRecur? l e = some (a, d)) : e = .recur a d l.header := by
  unfold ownRecur? at h
  split at h
  · split at h
    · rename_i hh
      cases h
      rw [hh]
    · cases h
  · cases h

/-- One side of the comparison is the tested recurrence and the other the bound. -/
theorem orient?_sides {op : BinOp} {left right : SymExpr} (h : s.orient? l op left right = some t) :
    ∃ exchanged : Bool, t.op = (if exchanged then op.swapped else op) ∧
      (left, right) = (if exchanged then (t.bound, t.tested l.header) else (t.tested l.header, t.bound)) := by
  unfold orient? at h
  split at h
  · rename_i hleft
    split at h
    · cases h
      exact ⟨false, rfl, Prod.ext (eq_recur_of_ownRecur? hleft) rfl⟩
    · cases h
  · rename_i hright
    split at h
    · cases h
      exact ⟨true, rfl, Prod.ext rfl (eq_recur_of_ownRecur? hright)⟩
    · cases h
  · cases h

/-- The two sides of a comparison have these expressions, the left one asked for first. -/
def Compared (s : Subject) (x y : Operand) (memo : Memo) (sides : SymExpr × SymExpr) (memo' : Memo) : Prop :=
  ∃ memo₁, s.exprOf x memo = some (sides.1, memo₁) ∧ s.exprOf y memo₁ = some (sides.2, memo')

theorem exitTest_sides (h : s.exitTest l memo = some (some t, memo')) :
    ∃ (op : BinOp) (x y : Operand) (exchanged : Bool), s.latchTest? l = some (op, x, y) ∧
      t.op = (if exchanged then op.swapped else op) ∧
      s.Compared x y memo (if exchanged then (t.bound, t.tested l.header) else (t.tested l.header, t.bound)) memo' := by
  unfold exitTest at h
  cases hlatch : s.latchTest? l with
  | none =>
    rw [hlatch] at h
    cases (Query.pure_eq_some_iff.mp h).1
  | some found =>
    obtain ⟨op, x, y⟩ := found
    rw [hlatch] at h
    obtain ⟨left, memo₁, hx, h⟩ := Query.bind_eq_some_iff.mp h
    obtain ⟨right, memo₂, hy, h⟩ := Query.bind_eq_some_iff.mp h
    obtain ⟨horient, rfl⟩ := Query.pure_eq_some_iff.mp h
    obtain ⟨exchanged, hop, hsides⟩ := orient?_sides horient
    exact ⟨op, x, y, exchanged, rfl, hop, hsides ▸ ⟨memo₁, hx, hy⟩⟩

/-- The test of a natural loop holds exactly if its latch, as it stands, goes back to the header. -/
theorem exitTest_spec (hl : IsLoop s.func l) (h : s.exitTest l memo = some (some t, memo')) :
    ∃ (b : CompareBranch) (exchanged : Bool), b.IsLatchOf s.func l ∧ b.op.isComparison = true ∧
      s.Compared b.left b.right memo (if exchanged then (t.bound, t.tested l.header) else (t.tested l.header, t.bound))
        memo' ∧
      ∀ x n, b.Repeats l.header exchanged x n ↔ t.op.holds x n = true := by
  obtain ⟨op, x, y, exchanged, htest, hop, hsides⟩ := exitTest_sides h
  obtain ⟨b, hb, hcompares, hexit, rfl, rfl, hback⟩ := latchTest?_spec htest
  refine ⟨b, exchanged, hb, hcompares, hsides, ?_⟩
  have hgoes := CompareBranch.goesTo_eq_header hback (hb.leaves hl hexit)
  intro x n
  unfold CompareBranch.Repeats
  rw [hop]
  cases exchanged with
  | false => exact hgoes x n
  | true => exact (hgoes n x).trans (by rw [if_pos rfl, BinOp.holds_swapped])

/-! ## Counts -/

theorem toInt_sub_one {a : Word} (h : 0 < a.toInt) : (a - 1).toInt = a.toInt - 1 := by
  have hlt := a.toInt_lt
  have hone : (1 : Word).toInt = 1 := rfl
  rw [Int64.toInt_sub, hone]
  exact Int.bmod_eq_of_le (by omega) (by omega)

/-- A number of rounds is below the count of strides exactly if so many strides stay within the distance. -/
theorem strides_spec {distance : SymExpr} {stride : Word} {inclusive : Bool} (hs : 0 < stride.toInt)
    (hk : (strides distance stride inclusive).isKnown = true) :
    distance.isKnown = true ∧ ∀ v (k : Int), k + 1 < evalIn v (strides distance stride inclusive) ↔
      k * stride.toInt ≤ evalIn v distance - (if inclusive then 0 else 1) := by
  unfold strides at hk ⊢
  split at hk
  · cases hk
  · rename_i twice htwice
    have htwo : twice.toInt = stride.toInt * 2 := toInt_of_ofInt? htwice
    obtain ⟨hsum, _, hquot⟩ := quotient_exactIn hk
    obtain ⟨hdist, _, hplus, _⟩ := plus_exactIn hsum
    have hbias : (if inclusive then twice else twice - 1).toInt = 2 * stride.toInt - (if inclusive then 0 else 1) := by
      cases inclusive with
      | true => rw [if_pos rfl, if_pos rfl, htwo]; ring
      | false =>
        have hsub := toInt_sub_one (a := twice) (by omega)
        rw [if_neg Bool.false_ne_true, if_neg Bool.false_ne_true, hsub, htwo]; ring
    refine ⟨hdist, fun v k => ?_⟩
    have hround : evalIn v distance + (2 * stride.toInt - (if inclusive then 0 else 1)) =
        evalIn v distance - (if inclusive then 0 else 1) + 2 * stride.toInt := by ring
    rw [hquot, hplus, evalIn_const, evalIn_const, hbias, hround, Int.add_mul_ediv_right _ _ hs.ne',
      ← Int.le_ediv_iff_mul_le hs]
    omega

/-- The opposite of a step is exact where strides can be counted. -/
theorem toInt_opposite {step : Word} {distance : SymExpr} {inclusive : Bool}
    (hk : (strides distance (Word.opposite step) inclusive).isKnown = true) : (Word.opposite step).toInt = -step.toInt := by
  unfold Word.opposite at hk ⊢
  cases h : Word.ofInt? (-step.toInt) with
  | some w => exact toInt_of_ofInt? h
  | none =>
    -- twice the greatest word is no word
    rw [h] at hk
    cases hk

/-- A known trip count is that of the test of the loop. -/
theorem exists_exitTest_of_tripCount {c : SymExpr} (h : s.tripCount l memo = some (c, memo')) (hk : c.isKnown = true) :
    ∃ t, s.exitTest l memo = some (some t, memo') ∧ c = countOf t := by
  obtain ⟨test?, memo₁, htest, h⟩ := Query.bind_eq_some_iff.mp h
  obtain ⟨rfl, rfl⟩ := Query.pure_eq_some_iff.mp h
  cases test? with
  | none => cases hk
  | some t => exact ⟨t, htest, rfl⟩

section

variable {start bound : SymExpr} {step : Word} {inclusive : Bool}

/-- Counting up: the next round is below the count exactly if the recurrence has not passed the bound. -/
theorem strides_up (hk : (if 0 < step then strides (bound.minus start) step inclusive else unknown).isKnown = true)
    (v : Valuation) (k : Int) :
    k + 1 < evalIn v (if 0 < step then strides (bound.minus start) step inclusive else unknown) ↔
      evalIn v start + k * step.toInt ≤ evalIn v bound - (if inclusive then 0 else 1) := by
  split at hk
  · rename_i hs
    obtain ⟨hdist, hcount⟩ := strides_spec (Int64.lt_iff_toInt_lt.mp hs) hk
    obtain ⟨_, _, hminus, _⟩ := minus_exactIn hdist
    rw [if_pos hs, hcount, hminus]
    omega
  · cases hk

/-- Counting down. -/
theorem strides_down
    (hk : (if step < 0 then strides (start.minus bound) (Word.opposite step) inclusive else unknown).isKnown = true)
    (v : Valuation) (k : Int) :
    k + 1 < evalIn v (if step < 0 then strides (start.minus bound) (Word.opposite step) inclusive else unknown) ↔
      evalIn v bound + (if inclusive then 0 else 1) ≤ evalIn v start + k * step.toInt := by
  split at hk
  · rename_i hs
    have hneg : step.toInt < 0 := Int64.lt_iff_toInt_lt.mp hs
    have hstride := toInt_opposite hk
    obtain ⟨hdist, hcount⟩ := strides_spec (by omega) hk
    obtain ⟨_, _, hminus, _⟩ := minus_exactIn hdist
    rw [if_pos hs, hcount, hminus, hstride, mul_neg]
    omega
  · cases hk

end

theorem evalIn_minus_plus_one {a b : SymExpr} (hk : ((a.minus b).plus (.const 1)).isKnown = true) (v : Valuation) :
    evalIn v ((a.minus b).plus (.const 1)) = evalIn v a - evalIn v b + 1 := by
  obtain ⟨hdist, _, hplus, _⟩ := plus_exactIn hk
  obtain ⟨_, _, hminus, _⟩ := minus_exactIn hdist
  rw [hplus, hminus]
  rfl

theorem strides_parts {distance : SymExpr} {stride : Word} {inclusive : Bool}
    (hk : (strides distance stride inclusive).isKnown = true) :
    distance.isKnown = true ∧ (strides distance stride inclusive).atoms ⊆ distance.atoms := by
  unfold strides at hk ⊢
  split at hk
  · cases hk
  · obtain ⟨hsum, _⟩ := quotient_exactIn hk
    obtain ⟨hdist, _, _, hatoms⟩ := plus_exactIn hsum
    exact ⟨hdist, fun x hx => by simpa using hatoms (by simpa using atoms_quotient _ _ hx)⟩

/-- A known count is made of the distance from the start to the bound, or back. -/
theorem exists_distance (hk : (countOf t).isKnown = true) :
    ∃ distance : SymExpr, (distance = t.bound.minus t.start ∨ distance = t.start.minus t.bound) ∧
      distance.isKnown = true ∧ (countOf t).atoms ⊆ distance.atoms := by
  have hnext : ∀ {distance : SymExpr}, (distance.plus (.const 1)).isKnown = true →
      distance.isKnown = true ∧ (distance.plus (.const 1)).atoms ⊆ distance.atoms := fun h =>
    ⟨(plus_exactIn h).1, fun x hx => by simpa using (plus_exactIn h).2.2.2 hx⟩
  obtain ⟨op, start, stepExpr, bound⟩ := t
  unfold countOf at hk ⊢
  split at hk
  · cases hk
  · simp only at hk ⊢
    cases op with
    | lt | le =>
      simp only at hk ⊢
      split at hk
      · rename_i hs
        rw [if_pos hs]
        exact ⟨_, Or.inl rfl, strides_parts hk⟩
      · cases hk
    | gt | ge =>
      simp only at hk ⊢
      split at hk
      · rename_i hs
        rw [if_pos hs]
        exact ⟨_, Or.inr rfl, strides_parts hk⟩
      · cases hk
    | ne =>
      simp only at hk ⊢
      split at hk
      · rename_i hone
        rw [if_pos hone]
        exact ⟨_, Or.inl rfl, hnext hk⟩
      · rename_i hne
        split at hk
        · rename_i hminusOne
          rw [if_neg hne, if_pos hminusOne]
          exact ⟨_, Or.inr rfl, hnext hk⟩
        · cases hk
    | _ => cases hk

/-- The start and the bound of a test with a known count are known, and the count is made of them. -/
theorem countOf_parts (hk : (countOf t).isKnown = true) :
    t.start.isKnown = true ∧ t.bound.isKnown = true ∧ ∀ x ∈ (countOf t).atoms, x ∈ t.start.atoms ∨ x ∈ t.bound.atoms := by
  obtain ⟨distance, rfl | rfl, hdist, hatoms⟩ := exists_distance hk
  · obtain ⟨hbound, hstart, _, hparts⟩ := minus_exactIn hdist
    exact ⟨hstart, hbound, fun x hx => (List.mem_append.mp (hparts (hatoms hx))).symm⟩
  · obtain ⟨hstart, hbound, _, hparts⟩ := minus_exactIn hdist
    exact ⟨hstart, hbound, fun x hx => List.mem_append.mp (hparts (hatoms hx))⟩

/-- How the tests with a known count relate to it: an ordering holds as long as the next round is below the count, and
`≠` unless the next round is the count. -/
theorem countOf_spec (hk : (countOf t).isKnown = true) :
    ∃ step : Word, t.step = .const step ∧
      (t.op ∈ [.lt, .le, .gt, .ge] ∧
          (∀ v (k : Int), t.op.holds (evalIn v t.start + k * step.toInt) (evalIn v t.bound) = true ↔
            k + 1 < evalIn v (countOf t)) ∨
        t.op = .ne ∧ ∀ v, evalIn v (countOf t) = step.toInt * (evalIn v t.bound - evalIn v t.start) + 1 ∧
          ∀ k : Int, t.op.holds (evalIn v t.start + k * step.toInt) (evalIn v t.bound) = true ↔
            k + 1 ≠ evalIn v (countOf t)) := by
  obtain ⟨op, start, stepExpr, bound⟩ := t
  unfold countOf at hk ⊢
  split at hk
  · cases hk
  · rename_i step hstep
    refine ⟨step, eq_const_of_const? hstep, ?_⟩
    simp only at hk ⊢
    cases op with
    | lt =>
      refine Or.inl ⟨by simp, fun v k => ?_⟩
      rw [strides_up hk, BinOp.holds, decide_eq_true_eq]
      exact Int.le_sub_one_iff.symm
    | le =>
      refine Or.inl ⟨by simp, fun v k => ?_⟩
      rw [strides_up hk, BinOp.holds, decide_eq_true_eq, if_pos rfl, sub_zero]
    | gt =>
      refine Or.inl ⟨by simp, fun v k => ?_⟩
      rw [strides_down hk, BinOp.holds, decide_eq_true_eq]
      exact Int.lt_iff_add_one_le
    | ge =>
      refine Or.inl ⟨by simp, fun v k => ?_⟩
      rw [strides_down hk, BinOp.holds, decide_eq_true_eq, if_pos rfl, add_zero]
    | ne =>
      simp only at hk ⊢
      refine Or.inr ⟨trivial, fun v => ?_⟩
      split at hk
      · rename_i hone
        have hstep : step.toInt = 1 := by rw [hone]; rfl
        rw [if_pos hone, evalIn_minus_plus_one hk, hstep]
        refine ⟨by ring, fun k => ?_⟩
        rw [BinOp.holds, decide_eq_true_eq]
        omega
      · rename_i hne
        split at hk
        · rename_i hminusOne
          have hstep : step.toInt = -1 := by rw [hminusOne]; rfl
          rw [if_neg hne, if_pos hminusOne, evalIn_minus_plus_one hk, hstep]
          refine ⟨by ring, fun k => ?_⟩
          rw [BinOp.holds, decide_eq_true_eq]
          omega
        · cases hk
    | _ => cases hk

end Subject

/-- **Trip counts are right in exact arithmetic.** Take a loop whose trip count is known, whatever was asked before. Its
latch ends in a branch on a comparison, one side of which is the tested recurrence `{a,+,s}` with a constant step and the
other the bound `n`. Give all leaves and all headers any integers. Consider the loop that after round `k` compares, as the
latch does, `a + k * s` and `n`, and goes on if the latch then goes to the header. If the normalised comparison is an
ordering, that loop runs exactly as often as the trip count says, and once if it says less than that. If it is `≠`, the
loop runs exactly as often as the trip count says unless `s` leads away from `n`; then it never ends. If `a` and `n` do not
mention the loop's own header, `a + k * s` and `n` are the two sides of the comparison in round `k`. -/
theorem tripCount_exact (f : Func) (l : Loop) (hl : l ∈ f.loops) {memo memo' : Memo} {c : SymExpr}
    (hc : (Snapshot.of f).tripCount l memo = some (c, memo')) (hk : c.isKnown = true) :
    ∃ (b : CompareBranch) (exchanged : Bool) (t : ExitTest) (s : Word),
      b.IsLatchOf f l ∧ (Snapshot.of f).exitTest l memo = some (some t, memo') ∧ t.step = .const s ∧
      (Snapshot.of f).Compared b.left b.right memo
        (if exchanged then (t.bound, t.tested l.header) else (t.tested l.header, t.bound)) memo' ∧
      t.op ∈ [.lt, .le, .gt, .ge, .ne] ∧
      ∀ v : Valuation,
        let a := t.start.evalIn v
        let n := t.bound.evalIn v
        let count := c.evalIn v
        let again := fun k : Nat => b.Repeats l.header exchanged (a + k * s.toInt) n
        (t.op ∈ [.lt, .le, .gt, .ge] → RunsExactly again (max 1 count)) ∧
        (t.op = .ne → (0 ≤ s.toInt * (n - a) → RunsExactly again count) ∧ (s.toInt * (n - a) < 0 → RunsForever again)) ∧
        (.round l.header ∉ t.start.atoms → .round l.header ∉ t.bound.atoms → ∀ k : Nat,
          (t.tested l.header).evalIn (v.inRound l.header k) = a + k * s.toInt ∧
            t.bound.evalIn (v.inRound l.header k) = n) := by
  obtain ⟨t, htest, rfl⟩ := Subject.exists_exitTest_of_tripCount hc hk
  have hloop : IsLoop (Snapshot.of f).func l := isLoop_of_mem hl
  obtain ⟨b, exchanged, hb, -, hsides, hagain⟩ := Subject.exitTest_spec hloop htest
  obtain ⟨s, hs, hcount⟩ := Subject.countOf_spec hk
  have hfree : .round l.header ∉ t.step.atoms := by
    rw [hs]
    exact List.not_mem_nil
  refine ⟨b, exchanged, t, s, hb, htest, hs, hsides, ?_, fun v => ⟨fun hop => ?_, fun hop => ?_, fun ha hn k => ?_⟩⟩
  · rcases hcount with ⟨hop, _⟩ | ⟨hop, _⟩
    · exact List.mem_append_left [.ne] hop
    · simp [hop]
  · rcases hcount with ⟨_, hcount⟩ | ⟨hne, _⟩
    · exact runsExactly_of_lt fun k => (hagain _ _).trans (hcount v k)
    · rw [hne] at hop
      simp at hop
  · rcases hcount with ⟨hordered, _⟩ | ⟨_, hcount⟩
    · rw [hop] at hordered
      simp at hordered
    · obtain ⟨hval, hcount⟩ := hcount v
      obtain ⟨hends, hnever⟩ := runs_of_ne fun k => (hagain _ _).trans (hcount k)
      exact ⟨fun h => hends (by omega), fun h => hnever (by omega)⟩
  · exact ⟨by rw [ExitTest.tested, SymExpr.evalIn_recur_inRound ha hfree, hs]; rfl, SymExpr.evalIn_inRound hn k⟩

/-- A loop that counts down by three and leaves when its bound is at least the count: the bound stands on the left and the
way back is the one on false. -/
def countDown : Func where
  name := "countDown"
  params := [0, 1]
  blocks := [
    { term := .jump 1 },
    { instrs := [{ op := .phi 2 [(0, .var 0), (1, .var 3)] }, { op := .binary .sub 3 (.var 2) (.lit (.int 3)) },
        { op := .binary .ge 4 (.var 1) (.var 2) }],
      term := .branch (.var 4) 2 1 },
    { term := .ret [.var 2] }]

/-- From ten the loop gets to seven, four and one, and one is not above the bound. -/
theorem countDown_tripCount_exact :
    ∃ l ∈ countDown.loops, ∃ c memo', (Snapshot.of countDown).tripCount l {} = some (c, memo') ∧ c.isKnown = true ∧
      ∃ (b : CompareBranch) (exchanged : Bool), b.IsLatchOf countDown l ∧
        RunsExactly (fun k : Nat => b.Repeats l.header exchanged (10 + k * -3) 1) 4 := by
  let l : Loop := { header := 1, tails := [1], blocks := [1], preheader := some 0, exitEdge := some (1, 2) }
  let v : Valuation := { value := fun x => if x = 0 then 10 else 1, rounds := fun _ => 0 }
  have hl : l ∈ countDown.loops := by decide +kernel
  have hcount : ((Snapshot.of countDown).tripCount l {}).map (fun p => (p.1.isKnown, p.1.evalIn v)) = some (true, 4) := by
    decide +kernel
  have htest : ((Snapshot.of countDown).exitTest l {}).map Prod.fst =
      some (some ⟨.gt, .leaf 0, .const (-3), .leaf 1⟩) := by decide +kernel
  obtain ⟨⟨c, memo'⟩, hc, hfacts⟩ := Option.map_eq_some_iff.mp hcount
  obtain ⟨hk, hvalue⟩ := Prod.ext_iff.mp hfacts
  obtain ⟨b, exchanged, t, s, hb, ht, hs, _, _, hruns⟩ := tripCount_exact countDown l hl hc hk
  rw [ht, Option.map_some, Option.some.injEq, Option.some.injEq] at htest
  subst htest
  obtain rfl : (-3 : Word) = s := SymExpr.const.inj hs
  have hexact := (hruns v).1 (by decide)
  have hvalue : c.evalIn v = 4 := hvalue
  rw [hvalue] at hexact
  exact ⟨l, hl, c, memo', hc, hk, b, exchanged, hb, hexact⟩

end SsaFusion
