import SsaFusion.Proofs.Fusion.Addresses
import SsaFusion.Proofs.Fusion.Counting

/-!
# Runs without wrap-around are faithful

The gates compare expressions, and a run without wrap-around computes their values. On a visit of a cleared pair, one valuation
gives what the first loop knows in one round and what the second knows in another (`exists_valuation`), so what the gates found
out about all valuations holds of the run: an induction variable that replaces another holds the same datum in the same round
(`induction_agrees`), and the first loop does not get to a cell after the second (`cells_apart`). Together with the equal number
of rounds this makes the run faithful to the plan (`ClearedRun.faithful`, `CarefullyPlanned.faithful`).
-/

namespace SsaFusion

open Plan (phiDests)
open Func (OperandHas)

namespace Visit

variable {f : Func} {l₁ l₂ : Loop} {p : Plan} {args : List Word} {limit N i j s t e a₁ x₁ a₂ x₂ : Nat} {M : Nat → Moment}
variable {r : RunResult} (L : Layout f l₁ l₂ p) (hv : f.Valid) (C : f.Completes args limit M N r)
variable (V : Visit f l₁ l₂ p M N s t e a₁ x₁ a₂ x₂)

include L hv C V

/-- **One valuation for both loops**: in the round of one it gives what the first loop knows, in the round of the other what the
second knows. -/
theorem exists_valuation (ha₁ : a₁ ≤ i) (hx₁ : i < x₁) (ha₂ : a₂ ≤ j) (hx₂ : j < x₂) {P Q : SymExpr}
    (hP : ∀ x ∈ P.atoms, f.Settled (M i).block (M i).done x) (hQ : ∀ x ∈ Q.atoms, f.Settled (M j).block (M j).done x)
    (hx : ∀ x ∈ Q.atoms, f.Unvaried l₁ x) :
    ∃ v : Valuation, P.evalIn (v.inRound l₁.header ((M i).rounds l₁.header)) = P.eval (M i).coded ∧
      (Q.rebase l₂.header l₁.header).evalIn (v.inRound l₁.header ((M j).rounds l₂.header)) = Q.eval (M j).coded := by
  let v : Valuation :=
    { value := fun y => if .value y ∈ P.atoms then (M i).coded.at (.value y) else (M j).coded.at (.value y)
      rounds := fun h => if .round h ∈ P.atoms then (M i).coded.at (.round h) else (M j).coded.at (.round h) }
  have hat : ∀ x, v.at x = if x ∈ P.atoms then (M i).coded.at x else (M j).coded.at x := by
    intro x
    cases x <;> rfl
  refine ⟨v, SymExpr.evalIn_congr P fun x hxP => ?_, ?_⟩
  · rw [Valuation.at_inRound, Reading.at_valuation, hat, if_pos hxP]
    split
    · subst x
      rfl
    · rfl
  · rw [SymExpr.evalIn_rebase, Valuation.rounds_inRound]
    refine SymExpr.evalIn_congr Q fun x hxQ => ?_
    have hne : x ≠ .round l₁.header := by
      rintro rfl
      exact hx _ hxQ L.loop₁.header_mem
    rw [Valuation.at_inRound, Valuation.at_inRound, Reading.at_valuation, hat, if_neg hne]
    split
    · subst x
      rfl
    · split
      · rename_i hxP
        exact (V.coded_eq L hv C ha₁ hx₁ ha₂ hx₂ (hP x hxP) (hQ x hxQ) (hx x hxQ)).symm
      · rfl

end Visit

/-- An induction variable is there all through a stay in its loop. -/
theorem Stay.induction_there {f : Func} {args : List Word} {limit N k a x : Nat} {M : Nat → Moment} {r : RunResult} {l : Loop}
    {sh : LoopShape} (hv : f.Valid) (C : f.Completes args limit M N r) (hl : l ∈ f.loops) (hs : ShapeOf f l sh)
    (S : Stay f l sh M a x) (hx : x ≤ N) (ha : a ≤ k) (hk : k < x) :
    f.AvailableBefore (M k).block (M k).done sh.induction ∧ ∃ d, (M k).machine.env.get? sh.induction = some d := by
  obtain ⟨i, hi, hd⟩ := hs.induction
  constructor
  · obtain ⟨m, hm, hdef⟩ := Func.mem_fresh_phis.mp (List.mem_filterMap.mpr ⟨i, hi, hd⟩)
    refine Func.availableBefore_iff.mpr (Or.inr ⟨sh.header, m, hdef, ?_⟩)
    by_cases hhead : (M k).block = sh.header
    · have hdone := (Func.live_moment hv.once (C.moment k (by omega))).2
      rw [hhead] at hdone
      exact Or.inr ⟨hhead.symm, by omega⟩
    · exact Or.inl ⟨Ne.symm hhead, hs.header_dominates (isLoop_of_mem hl) (S.inside k ha hk)⟩
  · obtain ⟨n, rfl, -⟩ := S.before
    have hmove := C.moves_of_starts hv.once (by omega) S.enters
    obtain ⟨d, sources, hop⟩ := Instr.eq_phi_of_isPhi (f.isPhi_of_mem_phisAt hi)
    rw [Instr.dest?, hop] at hd
    cases hd
    obtain ⟨-, y, -, -, hy⟩ := hmove.bound i (S.enters.1 ▸ hi) _ sources hop
    exact C.bound_mono hv.once ha (by omega) ⟨y, hy⟩

/-- What a load or store reads its address from may be read there. -/
theorem Func.Touches.readable {f : Func} (hv : f.Valid) {q : Position} {o : Operand} {w : Bool} (h : f.Touches q o w)
    (hq : f.Live q.block) : ∃ i, f.instrAt? q.block q.index = some i ∧ i.isPhi = false ∧ o ∈ i.operands ∧
      Machine.Readable (f.AvailableBefore q.block q.index) o := by
  cases h with
  | @load i _ _ hi hop | @store i _ _ hi hop =>
    have hphi : i.isPhi = false := by rw [Instr.isPhi, hop]; rfl
    have ho : o ∈ i.operands := by rw [Instr.operands, hop]; simp [Op.operands]
    exact ⟨i, hi, hphi, ho, Func.readable_operand hv hi hphi hq ho⟩

namespace ClearedRun

variable {f : Func} {l₁ l₂ : Loop} {p : Plan} {args : List Word} {limit N i j s t e a₁ x₁ a₂ x₂ : Nat} {M : Nat → Moment}
variable {r : RunResult} (W : ClearedRun f l₁ l₂ p args limit M N r) (V : Visit f l₁ l₂ p M N s t e a₁ x₁ a₂ x₂)
variable (ha₁ : a₁ ≤ i) (hx₁ : i < x₁) (ha₂ : a₂ ≤ j) (hx₂ : j < x₂)

include W V ha₁ hx₁ ha₂ hx₂

/-- **In the same round, the induction variables hold the same datum** if one is to replace the other. -/
theorem induction_agrees (hu : p.unify = true) (hr : (M i).rounds l₁.header = (M j).rounds l₂.header) :
    (M j).machine.env.get? p.second.induction = (M i).machine.env.get? p.first.induction := by
  have L := W.layout
  have C := W.completes
  have X := W.toExactRun
  have hle₁ : x₁ ≤ N := by have := V.le₁; have := V.turn_lt; have := V.le; omega
  have hle₂ : x₂ ≤ N := V.le₂.trans V.le
  obtain ⟨e, he₂, he₁, hknown⟩ := W.cleared.induction hu
  obtain ⟨hav₁, d₁, hd₁⟩ := V.stay₁.induction_there W.valid C L.siblings.first L.shape₁ hle₁ ha₁ hx₁
  obtain ⟨hav₂, d₂, hd₂⟩ := V.stay₂.induction_there W.valid C L.siblings.second L.shape₂ hle₂ ha₂ hx₂
  have hshared := L.shared_of_back (Or.inl L.header₂_mem) (Layout.mem_destsAt.mpr (Or.inl L.induction₂_mem))
  have hunvaried := L.unvaried_of_shared W.valid W.scalars W.live W.entry he₂ hshared
  obtain ⟨v, h₁, h₂⟩ := V.exists_valuation L W.valid C ha₁ hx₁ ha₂ hx₂
    (X.settled_value he₁ hav₁ (C.live W.valid.once (by omega))) (X.settled_value he₂ hav₂ (C.live W.valid.once (by omega)))
    hunvaried
  have hcode : d₂.code = d₁.code := by
    calc d₂.code = e.eval (M j).coded := X.value_code he₂ (e.isKnown_of_rebase hknown) (C.moment j (by omega)) hav₂ hd₂
      _ = (e.rebase l₂.header l₁.header).evalIn (v.inRound l₁.header ((M j).rounds l₂.header)) := h₂.symm
      _ = (e.rebase l₂.header l₁.header).eval (M i).coded := hr ▸ h₁
      _ = d₁.code := (X.value_code he₁ hknown (C.moment i (by omega)) hav₁ hd₁).symm
  rw [hd₁, hd₂, Datum.code_injective hcode]

/-- **The first loop does not get to a cell after the second**, if one of them writes it. -/
theorem cells_apart (hr : (M j).rounds l₂.header < (M i).rounds l₁.header) {c : Nat × Nat} {w w' : Bool}
    (hi : (M i).access? f = some (c, w)) (hj : (M j).access? f = some (c, w')) : w = false ∧ w' = false := by
  have L := W.layout
  have C := W.completes
  have X := W.toExactRun
  have hiN : i ≤ N := by have := V.le₁; have := V.turn_lt; have := V.le; omega
  have hjN : j ≤ N := by have := V.le₂; have := V.le; omega
  have hin₁ := V.stay₁.inside i ha₁ hx₁
  have hin₂ := V.stay₂.inside j ha₂ hx₂
  by_contra hfalse
  have hwrites : w = true ∨ w' = true := by
    cases w <;> cases w' <;> simp at hfalse ⊢
  obtain ⟨o₁, n₁, ht₁, hptr₁, hn₁⟩ := Moment.exists_touch hi
  obtain ⟨o₂, n₂, ht₂, hptr₂, hn₂⟩ := Moment.exists_touch hj
  obtain ⟨v₁, v₂, P, Q, rfl, rfl, hP, hQ, hapart⟩ := W.cleared.cells ht₁ hin₁ ht₂ hin₂ hwrites
  obtain ⟨-, -, -, -, hread₁⟩ := ht₁.readable W.valid (C.live W.valid.once hiN)
  obtain ⟨instr, hinstr, hphi, ho, hread₂⟩ := ht₂.readable W.valid (C.live W.valid.once hjN)
  obtain ⟨halloc₁, heval₁⟩ := hP.pointer C X hiN (hread₁ v₁ rfl) (Machine.get?_of_read (Machine.read_of_readPtr hptr₁))
  obtain ⟨halloc₂, heval₂⟩ := hQ.pointer C X hjN (hread₂ v₂ rfl) (Machine.get?_of_read (Machine.read_of_readPtr hptr₂))
  have hshared := L.shared_of_instr W.valid W.scalars (Or.inl hin₂) hinstr hphi (instr.mem_reads.mpr ho)
  obtain ⟨v, h₁, h₂⟩ := V.exists_valuation L W.valid C ha₁ hx₁ ha₂ hx₂
    (hP.settled X (hread₁ v₁ rfl) (C.live W.valid.once hiN) (by simp))
    (hQ.settled X (hread₂ v₂ rfl) (C.live W.valid.once hjN) (by simp))
    (hQ.unvaried L X W.scalars hshared (by simp))
  refine Snapshot.evalIn_ne_of_offsetHazard?_eq_none L.loop₁.header_mem (hapart (halloc₁.unique C W.valid.once halloc₂))
    (W.outermost ht₁ hin₁ hP) v (Int.ofNat_lt.mpr hr) ?_
  calc P.offset.evalIn (v.inRound l₁.header ((M i).rounds l₁.header)) = P.offset.eval (M i).coded := h₁
    _ = Q.offset.eval (M j).coded := by rw [heval₁, heval₂, hn₁, hn₂]; rfl
    _ = (Q.offset.rebase l₂.header l₁.header).evalIn (v.inRound l₁.header ((M j).rounds l₂.header)) := h₂.symm

omit V ha₁ hx₁ ha₂ hx₂ in
/-- **A run without wrap-around is faithful to the plan of a cleared pair.** -/
theorem faithful (hjoin : ∀ g, p.guards = some g → g.join ≠ f.entry) : Faithful f l₁ l₂ p args limit := by
  have L := W.layout
  have C := W.completes
  refine ⟨fun k m m' hm hm' hin hout => ?_, fun hu k k' m m' hkk' hnot hm hm' hin hin' hr => ?_,
    fun k k' m m' c w w' hkk' hnot hm hm' hin hin' hr hacc hacc' => ?_, fun g hg hentry => absurd hentry (hjoin g hg)⟩
  · obtain ⟨hk, rfl⟩ := C.eq_of_moment? hm
    obtain ⟨-, rfl⟩ := C.eq_of_moment? hm'
    obtain ⟨s, t, e, a₁, x₁, a₂, x₂, V, ha₂, hx₂⟩ := W.exists_visit_of_mem hk hin
    have hlast : k + 1 = x₂ := by
      by_contra hne
      exact hout (V.stay₂.inside (k + 1) (by omega) (by omega))
    have := V.stay₁.lt
    have := V.lt₁
    have := V.le₁
    have := V.lt₂
    have := V.le₂
    obtain ⟨n, hn⟩ : ∃ n, n + 1 = x₁ := ⟨x₁ - 1, by omega⟩
    rw [← W.rounds_agree V hn hlast]
    exact V.rounds_left L W.valid C (by omega) V.stay₁.leaves.1 hn (by omega) (by omega)
  · obtain ⟨-, rfl⟩ := C.eq_of_moment? hm
    obtain ⟨hk', rfl⟩ := C.eq_of_moment? hm'
    obtain ⟨s, t, e, a₁, x₁, a₂, x₂, V, ha₂, hx₂⟩ := W.exists_visit_of_mem hk' hin'
    obtain ⟨ha₁, hx₁⟩ := V.mem_stay₁ L C hin hkk' hnot ha₂ hx₂
    exact W.induction_agrees V ha₁ hx₁ ha₂ hx₂ hu hr
  · obtain ⟨-, rfl⟩ := C.eq_of_moment? hm
    obtain ⟨hk', rfl⟩ := C.eq_of_moment? hm'
    obtain ⟨s, t, e, a₁, x₁, a₂, x₂, V, ha₂, hx₂⟩ := W.exists_visit_of_mem hk' hin'
    obtain ⟨ha₁, hx₁⟩ := V.mem_stay₁ L C hin hkk' hnot ha₂ hx₂
    exact W.cells_apart V ha₁ hx₁ ha₂ hx₂ hr hacc hacc'

end ClearedRun

/-! ## Plans -/

/-- A plan that is made for a pair of loops after the pair has passed all gates. -/
structure Planned (f : Func) (l₁ l₂ : Loop) (p : Plan) : Prop where
  pair : (l₁, l₂) ∈ (Snapshot.of f).candidates
  legal : ∃ n, ((Snapshot.of f).legality l₁ l₂ n).Gives .legal
  plan : ((Snapshot.of f).plan l₁ l₂ .legal).Gives p

namespace Planned

variable {f : Func} {l₁ l₂ : Loop} {p : Plan} {args : List Word} {limit : Nat} {r : RunResult} (h : Planned f l₁ l₂ p)

include h

theorem layout : Layout f l₁ l₂ p := by
  obtain ⟨_, hlegal⟩ := h.legal
  exact layout_of_plan h.pair hlegal h.plan

theorem scalars : (Snapshot.of f).scalarDependences l₁ l₂ = some [] := by
  obtain ⟨_, hlegal⟩ := h.legal
  obtain ⟨found, hfound, hrest⟩ := (Snapshot.passes_of_legal hlegal .dependence).bind_inv
  obtain ⟨_, _, hrest⟩ := hrest.bind_inv
  obtain ⟨memo, memo', hdeps⟩ := hfound.ask_inv
  obtain ⟨throughMemory, memo₁, -, hdeps⟩ := Query.bind_eq_some_iff.mp hdeps
  obtain ⟨throughValues, memo₂, hvalues, hdeps⟩ := Query.bind_eq_some_iff.mp hdeps
  have hnone : throughMemory ++ throughValues = [] :=
    (Query.pure_eq_some_iff.mp hdeps).1.trans (List.isEmpty_iff.mp hrest.pure_inv)
  rw [(List.append_eq_nil_iff.mp hnone).2] at hvalues
  exact Query.eq_some_of_lift hvalues

theorem guardsMatch {g : GuardShape} (hg : p.guards = some g) : (Snapshot.of f).guardsMatch l₁ l₂ = true := by
  obtain ⟨_, hlegal⟩ := h.legal
  have hsame := (Snapshot.passes_of_legal hlegal .controlFlow).take_inv
  obtain ⟨hg₁, hg₂, _⟩ := h.layout.plan.guarded g hg
  by_contra hne
  rw [Bool.not_eq_true] at hne
  rw [Snapshot.isEquivalent, if_pos (by simp [Loop.isGuarded, hg₁, hg₂, hne])] at hsame
  cases hsame

theorem pairRun {M : Nat → Moment} {N : Nat} (hf : f.Valid) (hM : f.Completes args limit M N r) :
    PairRun f l₁ l₂ p args limit M N r :=
  ⟨h.layout, hf, hM, h.scalars, fun _ hg => h.guardsMatch hg⟩

end Planned

/-- A plan that rests on careful expressions alone. What is remembered by the time the plan is made is what the careful analysis
answers, no address of the first loop counts its rounds anywhere but outermost, and the pair does not lead back to the entry. -/
structure CarefullyPlanned (f : Func) (l₁ l₂ : Loop) (p : Plan) : Prop where
  pair : (l₁, l₂) ∈ (Snapshot.of f).candidates
  within : ∃ known n, f.Careful known ∧ ((Snapshot.of f).legality l₁ l₂ n).GivesWithin known .legal ∧
    ((Snapshot.of f).plan l₁ l₂ .legal).GivesWithin known p
  outermost : ∀ {q w v P}, f.Touches q (.var v) w → q.block ∈ l₁.blocks → f.Traces v (.const 0) P →
    P.offset.CountsOutermost l₁.header
  join : ∀ g, p.guards = some g → g.join ≠ f.entry

namespace CarefullyPlanned

variable {f : Func} {l₁ l₂ : Loop} {p : Plan} {args : List Word} {limit : Nat} {r : RunResult}

theorem planned (h : CarefullyPlanned f l₁ l₂ p) : Planned f l₁ l₂ p := by
  obtain ⟨known, n, -, hlegal, hplan⟩ := h.within
  exact ⟨h.pair, ⟨n, hlegal.gives⟩, hplan.gives⟩

/-- **What the gates promise is kept without wrap-around**: a run that returns is faithful to a carefully made plan. -/
theorem faithful (h : CarefullyPlanned f l₁ l₂ p) (hexact : f.ExactRun args limit) (hrun : f.run args limit = .ok r) :
    Faithful f l₁ l₂ p args limit := by
  obtain ⟨known, n, hknown, hlegal, hplan⟩ := h.within
  obtain ⟨M, N, hM⟩ := Func.exists_completes hrun
  have hsib := Func.siblings_of_candidate h.pair
  have W : ClearedRun f l₁ l₂ p args limit M N r :=
    { h.planned.pairRun hexact.valid hM, hexact with
      cleared := cleared_of_legal hknown hsib.first hsib.second hlegal hplan
      outermost := h.outermost }
  exact W.faithful h.join

end CarefullyPlanned

end SsaFusion
