import SsaFusion.Proofs.Fusion.Dependence
import SsaFusion.Proofs.Fusion.Shape
import SsaFusion.Proofs.Symbolic.Coding

/-!
# What the gates have been told

The gates decide by expressions from the memo table. Where all that the table holds in the end is what the careful analysis
answers (`Careful`), a plan for a legal pair rests on careful expressions alone (`cleared_of_legal`): those of the two sides of
both exit tests, which have the same count (`Tests`), those of the cells that lead from the addresses to their bases
(`Traces`), and those of the induction variables if one is to replace the other.
-/

namespace SsaFusion

open Func (OperandHas)

/-- A memo table holds only what the careful analysis answers. -/
def Func.Careful (f : Func) (memo : Memo) : Prop := Subject.Holds f.CarefulOf memo

theorem Func.careful_of_entries {f : Func} {memo : Memo}
    (h : ∀ q ∈ memo.entries, (Snapshot.of f).carefulExprOf? q.1 = some q.2) : f.Careful memo :=
  fun v e hv => h (v, e) (Table.mem_entries_of_get? hv)

theorem Func.Careful.answer {f : Func} {memo memo' known : Memo} {o : Operand} {e : SymExpr} (h : f.Careful known)
    (hanswer : (Snapshot.of f).Answers o memo e memo') (hext : memo'.Extends known) : OperandHas f.CarefulOf o e := by
  cases o with
  | lit x =>
    cases x <;> cases hanswer <;> rfl
  | var v => exact h v e (hext v e hanswer.kept)

theorem Func.Careful.exprOf {f : Func} {memo memo' known : Memo} {o : Operand} {e : SymExpr} (h : f.Careful known)
    (hexpr : (Snapshot.of f).exprOf o memo = some (e, memo')) (hext : memo'.Extends known) : OperandHas f.CarefulOf o e :=
  h.answer (Subject.exprOf_eq_some_iff.mp hexpr) hext

/-! ## Tests -/

/-- A loop goes on by a test, and the careful analysis gives both sides of the comparison at its latch their expressions. -/
def Func.Tests (f : Func) (l : Loop) (t : ExitTest) : Prop :=
  ∃ (b : CompareBranch) (exchanged : Bool), b.IsLatchOf f l ∧ b.op.isComparison = true ∧
    OperandHas f.CarefulOf b.left (if exchanged then t.bound else t.tested l.header) ∧
    OperandHas f.CarefulOf b.right (if exchanged then t.tested l.header else t.bound) ∧
    ∀ x n, b.Repeats l.header exchanged x n ↔ t.op.holds x n = true

theorem Func.Careful.tests {f : Func} {l : Loop} (hl : l ∈ f.loops) {memo memo' known : Memo} {c : SymExpr}
    (h : f.Careful known) (hcount : (Snapshot.of f).tripCount l memo = some (c, memo')) (hext : memo'.Extends known)
    (hk : c.isKnown = true) : ∃ t, f.Tests l t ∧ c = Subject.countOf t := by
  obtain ⟨t, htest, rfl⟩ := Subject.exists_exitTest_of_tripCount hcount hk
  have hloop : IsLoop (Snapshot.of f).func l := isLoop_of_mem hl
  obtain ⟨b, exchanged, hb, hcompares, ⟨memo₁, hleft, hright⟩, hagain⟩ := Subject.exitTest_spec hloop htest
  have hext₁ := (Subject.exprOf_grows _ _ _ _ _ hright).trans hext
  refine ⟨t, ⟨b, exchanged, hb, hcompares, ?_, ?_, hagain⟩, rfl⟩
  · cases exchanged <;> exact h.exprOf hleft hext₁
  · cases exchanged <;> exact h.exprOf hright hext

/-! ## Addresses -/

/-- An address leads from a value and a number of cells on to a location, by cells that have careful expressions. -/
inductive Func.Traces (f : Func) : ValueId → SymExpr → Location → Prop
  | shift {v d w : ValueId} {cells : Operand} {offset e : SymExpr} {P : Location}
    (hop : f.definingOp? v = some (.shift d (.var w) cells)) (hcells : OperandHas f.CarefulOf cells e)
    (hbase : Traces f w (offset.plus e) P) : Traces f v offset P
  | copy {v d w : ValueId} {offset : SymExpr} {P : Location} (hop : f.definingOp? v = some (.assign d (.var w)))
    (hsource : Traces f w offset P) : Traces f v offset P
  | array {v d : ValueId} {size : Nat} {offset : SymExpr} (hop : f.definingOp? v = some (.alloc d size))
    (hk : offset.isKnown = true) : Traces f v offset ⟨v, true, offset⟩
  | param {v : ValueId} {offset : SymExpr} (hv : v ∈ f.params) (hk : offset.isKnown = true) :
    Traces f v offset ⟨v, false, offset⟩

theorem Func.Careful.traces {f : Func} {v : ValueId} {offset : SymExpr} {memo memo' known : Memo} {r : Option Location}
    (h : f.Careful known) (hfollows : (Snapshot.of f).Follows v offset memo r memo') (hext : memo'.Extends known) {P : Location}
    (hr : r = some P) : f.Traces v offset P := by
  induction hfollows with
  | shift hop hcells hbase ih => exact .shift hop (h.answer hcells (hbase.grows.trans hext)) (ih hext hr)
  | shiftLit => cases hr
  | copy hop _ ih => exact .copy hop (ih hext hr)
  | array hop =>
    obtain ⟨hk, ⟨⟩⟩ := Option.ite_none_right_eq_some.mp hr
    exact .array hop hk
  | root =>
    obtain ⟨hroot, ⟨⟩⟩ := Option.ite_none_right_eq_some.mp hr
    simp only [Bool.and_eq_true, List.contains_iff_mem] at hroot
    exact .param hroot.1 hroot.2
  | hidden => cases hr

theorem Func.Careful.location {f : Func} {memo memo' known : Memo} {address : Operand} {P : Location} (h : f.Careful known)
    (hfound : (Snapshot.of f).locationOf address memo = some (some P, memo')) (hext : memo'.Extends known) :
    ∃ v, address = .var v ∧ f.Traces v (.const 0) P := by
  cases address with
  | lit => cases hfound
  | var v => exact ⟨v, rfl, h.traces (Snapshot.locationOf_eq_some_iff.mp hfound) hext rfl⟩

/-! ## Pairs -/

/-- What a plan for a legal pair rests on, in careful expressions. -/
structure Cleared (f : Func) (l₁ l₂ : Loop) (p : Plan) : Prop where
  count : ∃ t₁ t₂, f.Tests l₁ t₁ ∧ f.Tests l₂ t₂ ∧ Subject.countOf t₁ = Subject.countOf t₂ ∧
    (Subject.countOf t₁).isKnown = true
  induction : p.unify = true → ∃ e, f.CarefulOf p.second.induction e ∧
    f.CarefulOf p.first.induction (e.rebase l₂.header l₁.header) ∧ (e.rebase l₂.header l₁.header).isKnown = true
  cells : ∀ {q₁ q₂ : Position} {a₁ a₂ : Operand} {w₁ w₂ : Bool}, f.Touches q₁ a₁ w₁ → q₁.block ∈ l₁.blocks →
    f.Touches q₂ a₂ w₂ → q₂.block ∈ l₂.blocks → w₁ = true ∨ w₂ = true →
    ∃ v₁ v₂ P Q, a₁ = .var v₁ ∧ a₂ = .var v₂ ∧ f.Traces v₁ (.const 0) P ∧ f.Traces v₂ (.const 0) Q ∧
      (P.base = Q.base → (Snapshot.of f).offsetHazard? l₁ l₂ P.offset Q.offset = none)

section Cleared

variable {f : Func} {l₁ l₂ : Loop} {p : Plan} {pair : Nat} {known : Memo} (hknown : f.Careful known)

include hknown

theorem count_of_legal (hl₁ : l₁ ∈ f.loops) (hl₂ : l₂ ∈ f.loops)
    (hlegal : ((Snapshot.of f).legality l₁ l₂ pair).GivesWithin known .legal) :
    ∃ t₁ t₂, f.Tests l₁ t₁ ∧ f.Tests l₂ t₂ ∧ Subject.countOf t₁ = Subject.countOf t₂ ∧
      (Subject.countOf t₁).isKnown = true := by
  obtain ⟨c₁, h, hc₁⟩ := (Snapshot.passes_within_of_legal hlegal .tripCount).bind_inv
  obtain ⟨c₂, h, hc₂⟩ := h.bind_inv
  obtain ⟨_, h, -⟩ := h.bind_inv
  have hsame := h.gives.pure_inv
  simp only [Bool.and_eq_true, beq_iff_eq] at hsame
  obtain ⟨⟨hk₁, hk₂⟩, heq⟩ := hsame
  obtain ⟨_, _, hcount₁, hext₁⟩ := hc₁ (.bind (.ask (Subject.tripCount_grows _ l₂)) fun _ => .bind (.take _) fun _ => .pure _)
  obtain ⟨_, _, hcount₂, hext₂⟩ := hc₂ (.bind (.take _) fun _ => .pure _)
  obtain ⟨t₁, ht₁, rfl⟩ := hknown.tests hl₁ hcount₁ hext₁ hk₁
  obtain ⟨t₂, ht₂, rfl⟩ := hknown.tests hl₂ hcount₂ hext₂ hk₂
  exact ⟨t₁, t₂, ht₁, ht₂, heq, hk₁⟩

theorem cells_of_legal (hlegal : ((Snapshot.of f).legality l₁ l₂ pair).GivesWithin known .legal) {q₁ q₂ : Position}
    {a₁ a₂ : Operand} {w₁ w₂ : Bool} (h₁ : f.Touches q₁ a₁ w₁) (hq₁ : q₁.block ∈ l₁.blocks) (h₂ : f.Touches q₂ a₂ w₂)
    (hq₂ : q₂.block ∈ l₂.blocks) (hw : w₁ = true ∨ w₂ = true) :
    ∃ v₁ v₂ P Q, a₁ = .var v₁ ∧ a₂ = .var v₂ ∧ f.Traces v₁ (.const 0) P ∧ f.Traces v₂ (.const 0) Q ∧
      (P.base = Q.base → (Snapshot.of f).offsetHazard? l₁ l₂ P.offset Q.offset = none) := by
  obtain ⟨found, h, hfound⟩ := (Snapshot.passes_within_of_legal hlegal .dependence).bind_inv
  obtain ⟨_, h, -⟩ := h.bind_inv
  obtain rfl := List.isEmpty_iff.mp h.gives.pure_inv
  obtain ⟨memo, memo', hdeps, hext⟩ := hfound (.bind (.take _) fun _ => .pure _)
  obtain ⟨throughMemory, memo₁, hmemory, hdeps⟩ := Query.bind_eq_some_iff.mp hdeps
  obtain ⟨throughValues, memo₂, hvalues, hdeps⟩ := Query.bind_eq_some_iff.mp hdeps
  obtain ⟨hnone, rfl⟩ := Query.pure_eq_some_iff.mp hdeps
  have hext₁ := (Query.Grows.lift _ _ _ _ hvalues).trans hext
  rw [(List.append_eq_nil_iff.mp hnone).1] at hmemory
  obtain ⟨first, second, ⟨memo₃, hfirst, hsecond⟩, hnil⟩ := Snapshot.accesses_of_memoryDependences hmemory
  obtain ⟨_, _, _, hatP, hextP, hmemP⟩ := Snapshot.lists_of_touches (s := Snapshot.of f) h₁ hq₁ hfirst
  obtain ⟨_, _, _, hatQ, hextQ, hmemQ⟩ := Snapshot.lists_of_touches (s := Snapshot.of f) h₂ hq₂ hsecond
  have hsafe : (Snapshot.of f).hazard? l₁ l₂ _ _ = none :=
    Snapshot.hazard?_eq_none hmemP hmemQ hw fun d hd => by simp [← hnil] at hd
  obtain ⟨P, Q, rfl, rfl, hapart⟩ := Snapshot.locations_of_hazard?_eq_none hsafe
  have hext₃ := ((Snapshot.of f).accessesOf_grows _ _ _ _ hsecond).trans hext₁
  obtain ⟨v₁, rfl, hP⟩ := hknown.location hatP (hextP.trans hext₃)
  obtain ⟨v₂, rfl, hQ⟩ := hknown.location hatQ (hextQ.trans hext₁)
  refine ⟨v₁, v₂, P, Q, rfl, rfl, hP, hQ, fun hbase => ?_⟩
  rcases hapart with ⟨hne, -⟩ | ⟨-, hnone⟩
  · exact absurd hbase hne
  · exact hnone

theorem induction_of_plan (hplan : ((Snapshot.of f).plan l₁ l₂ .legal).GivesWithin known p) (hu : p.unify = true) :
    ∃ e, f.CarefulOf p.second.induction e ∧ f.CarefulOf p.first.induction (e.rebase l₂.header l₁.header) ∧
      (e.rebase l₂.header l₁.header).isKnown = true := by
  obtain ⟨hspec, hsame⟩ := Snapshot.plan_within hplan
  obtain ⟨memo, memo', hsame, hext⟩ := hsame.ask_inv
  obtain ⟨e₁, memo₁, he₁, hsame⟩ := Query.bind_eq_some_iff.mp hsame
  obtain ⟨e₂, memo₂, he₂, hsame⟩ := Query.bind_eq_some_iff.mp hsame
  obtain ⟨heq, rfl⟩ := Query.pure_eq_some_iff.mp hsame
  rw [hu, Bool.and_eq_true, beq_iff_eq, hspec.first.header, hspec.second.header] at heq
  obtain ⟨hk, rfl⟩ := heq
  exact ⟨e₂, hknown.exprOf he₂ hext, hknown.exprOf he₁ ((Subject.exprOf_grows _ _ _ _ _ he₂).trans hext), hk⟩

/-- **A plan for a legal pair rests on careful expressions** if nothing else is in the memo table in the end. -/
theorem cleared_of_legal (hl₁ : l₁ ∈ f.loops) (hl₂ : l₂ ∈ f.loops)
    (hlegal : ((Snapshot.of f).legality l₁ l₂ pair).GivesWithin known .legal)
    (hplan : ((Snapshot.of f).plan l₁ l₂ .legal).GivesWithin known p) : Cleared f l₁ l₂ p where
  count := count_of_legal hknown hl₁ hl₂ hlegal
  induction := induction_of_plan hknown hplan
  cells := cells_of_legal hknown hlegal

end Cleared

end SsaFusion
