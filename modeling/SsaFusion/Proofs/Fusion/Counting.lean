import SsaFusion.Proofs.Fusion.Clearance
import SsaFusion.Proofs.Fusion.Visits

/-!
# Both loops have the same number of rounds

In a run without wrap-around, the latch of a loop with a test goes back exactly if the test holds of the values of its two
sides at the moment (`latch_decides`), so a loop whose count does not change is left after as many rounds as the count says
(`rounds_eq_count`). On a visit of a cleared pair both counts are one expression, which reads the same at all moments of both
stays; so both loops are left after the same number of rounds (`rounds_agree`).
-/

namespace SsaFusion

open Func (OperandHas)

/-- A run without wrap-around that returns, of a function with a pair of loops that has been cleared. -/
structure ClearedRun (f : Func) (l₁ l₂ : Loop) (p : Plan) (args : List Word) (limit : Nat) (M : Nat → Moment) (N : Nat)
    (r : RunResult) : Prop extends PairRun f l₁ l₂ p args limit M N r, f.ExactRun args limit where
  cleared : Cleared f l₁ l₂ p
  outermost : ∀ {q w v P}, f.Touches q (.var v) w → q.block ∈ l₁.blocks → f.Traces v (.const 0) P →
    P.offset.CountsOutermost l₁.header

/-! ## Tests -/

/-- The instruction that computes what the latch of a loop branches on, with the expressions of its two sides. -/
structure Func.TestsBy (f : Func) (l : Loop) (sh : LoopShape) (t : ExitTest) (b : CompareBranch) (exchanged : Bool)
    (c : ValueId) (q : BlockId) (n : Nat) (i : Instr) : Prop where
  term : f.term? sh.latch = some (.branch (.var c) b.onTrue b.onFalse)
  instr : f.instrAt? q n = some i
  op : i.op = .binary b.op c b.left b.right
  dominates : f.Dominates q sh.latch
  compares : b.op.isComparison = true
  left : OperandHas f.CarefulOf b.left (if exchanged then t.bound else t.tested l.header)
  right : OperandHas f.CarefulOf b.right (if exchanged then t.tested l.header else t.bound)
  repeats : ∀ x n, b.Repeats l.header exchanged x n ↔ t.op.holds x n = true

theorem Func.Tests.exists_instr {f : Func} {l : Loop} {sh : LoopShape} {t : ExitTest} (hv : f.Valid) (hl : l ∈ f.loops)
    (hs : ShapeOf f l sh) (ht : f.Tests l t) : ∃ b exchanged c q n i, f.TestsBy l sh t b exchanged c q n i := by
  obtain ⟨b, exchanged, ⟨latch, c, d, hlatch, hterm, hop⟩, hcompares, hleft, hright, hrepeats⟩ := ht
  obtain rfl : latch = sh.latch := Option.some.inj (hlatch.symm.trans hs.latch)
  have hav := hv.termReads _ (hs.live_latch (isLoop_of_mem hl)) _ hterm c (List.mem_singleton_self c)
  obtain ⟨q, n, i, hi, hiop, hdom⟩ := Func.exists_binary hv.once hop hav
  exact ⟨b, exchanged, c, q, n, i, hterm, hi, hiop, hdom, hcompares, hleft, hright, hrepeats⟩

namespace Func.TestsBy

variable {f : Func} {l : Loop} {sh : LoopShape} {t : ExitTest} {b : CompareBranch} {exchanged : Bool} {c : ValueId}
variable {q : BlockId} {n m : Nat} {i : Instr} (T : f.TestsBy l sh t b exchanged c q n i)

include T

theorem operands : i.operands = [b.left, b.right] := by
  rw [Instr.operands, T.op]
  rfl

theorem isPhi : i.isPhi = false := by
  rw [Instr.isPhi, T.op]
  rfl

theorem dest? : i.dest? = some c := by
  rw [Instr.dest?, T.op]
  rfl

/-- What is compared may still be read at the end of the latch. -/
theorem readable (hv : f.Valid) (hlive : f.Live sh.latch) (hm : f.instrAt? sh.latch m = none) :
    ∀ o ∈ i.operands, Machine.Readable (f.AvailableBefore sh.latch m) o := by
  intro o ho w hw
  rw [Func.availableBefore_end hm]
  exact (Func.readable_operand hv T.instr T.isPhi (T.dominates.live hlive) ho w hw).out.mono T.dominates

/-- Whatever holds of the careful expressions of all that is compared holds of both sides of the test. -/
theorem of_operands {P : SymExpr → Prop} (h : ∀ o ∈ i.operands, ∀ e, OperandHas f.CarefulOf o e → P e) :
    P (t.tested l.header) ∧ P t.bound := by
  have hleft := h b.left (by simp [T.operands]) _ T.left
  have hright := h b.right (by simp [T.operands]) _ T.right
  cases exchanged with
  | false => exact ⟨hleft, hright⟩
  | true => exact ⟨hright, hleft⟩

/-- What is true of the atoms of all that is compared is true of the atoms of the count. -/
theorem of_count (hknown : (Subject.countOf t).isKnown = true) {P : Atom → Prop}
    (h : ∀ o ∈ i.operands, ∀ e, OperandHas f.CarefulOf o e → ∀ x ∈ e.atoms, P x) : ∀ x ∈ (Subject.countOf t).atoms, P x := by
  obtain ⟨htested, hbound⟩ := T.of_operands h
  intro x hx
  rcases (Subject.countOf_parts hknown).2.2 x hx with hx | hx
  · exact htested x (by simp [ExitTest.tested, hx])
  · exact hbound x hx

/-- The latch goes where the comparison of what its operands hold sends it. -/
theorem goes {args : List Word} {limit N k : Nat} {M : Nat → Moment} {r : RunResult} (C : f.Completes args limit M N r)
    (hv : f.Valid) (hlive : f.Live sh.latch) (hk : k < N) (hlatch : (M k).EndsAt f sh.latch) :
    ∃ x₁ x₂, (M k).machine.read b.left = .ok x₁ ∧ (M k).machine.read b.right = .ok x₂ ∧
      (M (k + 1)).block = b.goesTo x₁.code x₂.code := by
  have hav : f.AvailableBefore (M k).block (M k).done c := by
    rw [hlatch.1, Func.availableBefore_end hlatch.2]
    exact hv.termReads _ hlive _ T.term c (List.mem_singleton_self c)
  obtain ⟨z, hz, hget⟩ := C.coherent hv T.instr (T.dominates.live hlive) T.op hk.le hav
  obtain ⟨x₁, x₂, hread₁, hread₂, rfl⟩ := Machine.binary_comparison T.compares hz
  obtain ⟨term, hterm, hgoto⟩ := (C.moves_of_ends hv.once hk hlatch).transfer
  rw [hlatch.1, T.term] at hterm
  cases hterm
  obtain ⟨taken, htaken, hblock⟩ := Machine.branch_eq_goto hgoto
  rw [Machine.readBool, Machine.read, hget] at htaken
  cases htaken
  exact ⟨x₁, x₂, hread₁, hread₂, hblock⟩

end Func.TestsBy

/-! ## One loop -/

namespace Stay

variable {f : Func} {args : List Word} {limit N k n a x : Nat} {M : Nat → Moment} {r : RunResult} {l : Loop} {sh : LoopShape}
variable (C : f.Completes args limit M N r) (X : f.ExactRun args limit) (hl : l ∈ f.loops) (hs : ShapeOf f l sh)
variable (S : Stay f l sh M a x) (hx : x ≤ N)

include C X hl hs S hx

/-- Every round but the last ends at the latch. -/
theorem exists_latch (ha : a ≤ n) (hn : n < x) :
    ∀ round < (M n).rounds l.header, ∃ k, a ≤ k ∧ k < n ∧ (M k).EndsAt f sh.latch ∧ (M k).rounds l.header = round := by
  induction n, ha using Nat.le_induction with
  | base =>
    intro round hround
    rw [S.zero] at hround
    omega
  | succ n han ih =>
    intro round hround
    have hsame : (M (n + 1)).rounds l.header = (M n).rounds l.header →
        ∃ k, a ≤ k ∧ k < n + 1 ∧ (M k).EndsAt f sh.latch ∧ (M k).rounds l.header = round := by
      intro h
      obtain ⟨k, hak, hkn, hk⟩ := ih (by omega) round (h ▸ hround)
      exact ⟨k, hak, by omega, hk⟩
    rcases C.step_cases X.valid.once (show n < N by omega) with ⟨i, act, h⟩ | h
    · exact hsame (congrFun h.rounds _)
    · by_cases hhead : (M (n + 1)).block = l.header
      · have hloop := isLoop_of_mem hl
        have hin := S.inside n han (by omega)
        have hedge := h.edge
        rw [hhead, ← hs.header] at hedge
        have hlatch := (hs.into_header hloop (hloop.live_of_mem hin) hedge).resolve_left fun e =>
          hs.preheader_not_mem hloop (e ▸ hin)
        have hrounds : (M (n + 1)).rounds l.header = (M n).rounds l.header + 1 := by
          have hmem : l.contains (M n).block = true := by simpa [Loop.contains] using hin
          rw [h.rounds, hhead, Func.tally_header hl, hmem, if_pos rfl]
        rcases Nat.lt_or_ge round ((M n).rounds l.header) with hlt | hge
        · obtain ⟨k, hak, hkn, hk⟩ := ih (by omega) round hlt
          exact ⟨k, hak, by omega, hk⟩
        · exact ⟨n, han, Nat.lt_succ_self n, ⟨hlatch, hlatch ▸ h.last⟩, by omega⟩
      · exact hsame (by rw [h.rounds, Func.tally_of_ne (Ne.symm hhead)])

/-- A loop that goes back from its latch exactly under a condition on the round is left after the first round without it. -/
theorem rotated {again : Nat → Prop} (hagain : ∀ k, a ≤ k → k < x → (M k).EndsAt f sh.latch →
      (k + 1 < x ↔ again ((M k).rounds l.header))) (hk : k + 1 = x) :
    Rotated again 0 ((M k).rounds l.header + 1) := by
  have := S.lt
  obtain ⟨k', hk', -, hlatch, -⟩ := S.last C X.valid.once hl hs hx
  obtain rfl : k = k' := by omega
  refine .of_first (fun round hround => ?_) fun h => ?_
  · obtain ⟨n, han, hnk, hn, rfl⟩ := S.exists_latch C X hl hs hx (by omega) (by omega) round hround
    rw [Nat.zero_add]
    exact (hagain n han (by omega) hn).mp (by omega)
  · rw [Nat.zero_add] at h
    have := (hagain k (by omega) (by omega) hlatch).mpr h
    omega

/-- At the end of the latch, control stays in the loop exactly if it goes to the header. -/
theorem latch_stays (ha : a ≤ k) (hk : k < x) (hlatch : (M k).EndsAt f sh.latch) :
    k + 1 < x ↔ (M (k + 1)).block = l.header := by
  have hloop := isLoop_of_mem hl
  rcases S.latch_cases C X.valid.once hl hs hx ha hk hlatch with ⟨hend, hexit⟩ | ⟨hlt, hhead, -⟩
  · refine ⟨fun h => by omega, fun h => absurd hloop.header_mem ?_⟩
    rw [← h, hexit]
    exact hs.exit_not_mem hloop
  · exact ⟨fun _ => hhead.trans hs.header, fun _ => hlt⟩

variable {t : ExitTest} (ht : f.Tests l t) (hknown : (Subject.countOf t).isKnown = true)

include ht hknown

/-- **The latch decides by the test**: it goes back exactly if the test holds of the values of its sides at the moment. -/
theorem latch_decides (ha : a ≤ k) (hk : k < x) (hlatch : (M k).EndsAt f sh.latch) :
    k + 1 < x ↔ t.op.holds ((t.tested l.header).eval (M k).coded) (t.bound.eval (M k).coded) = true := by
  obtain ⟨b, exchanged, c, q, n, i, T⟩ := ht.exists_instr X.valid hl hs
  have hlive := hs.live_latch (isLoop_of_mem hl)
  obtain ⟨x₁, x₂, hread₁, hread₂, hblock⟩ := T.goes C X.valid hlive (show k < N by omega) hlatch
  have hcode : ∀ o ∈ i.operands, ∀ e d, OperandHas f.CarefulOf o e → e.isKnown = true → (M k).machine.read o = .ok d →
      d.code = e.eval (M k).coded := by
    intro o ho e d he hke hd
    refine X.code_eq_eval he hke (C.moment k (by omega)) ?_ hd
    rw [hlatch.1]
    exact T.readable X.valid hlive hlatch.2 o ho
  have hleft := hcode b.left (by simp [T.operands]) _ x₁ T.left
  have hright := hcode b.right (by simp [T.operands]) _ x₂ T.right
  have hbound := (Subject.countOf_parts hknown).2.1
  rw [S.latch_stays C X hl hs hx ha hk hlatch, hblock, ← T.repeats]
  cases exchanged with
  | false =>
    have hleft : x₁.code = (t.tested l.header).eval (M k).coded := hleft rfl hread₁
    have hright : x₂.code = t.bound.eval (M k).coded := hright hbound hread₂
    rw [← hleft, ← hright]
    exact Iff.rfl
  | true =>
    have hleft : x₁.code = t.bound.eval (M k).coded := hleft hbound hread₁
    have hright : x₂.code = (t.tested l.header).eval (M k).coded := hright rfl hread₂
    rw [← hleft, ← hright]
    exact Iff.rfl

/-- **The count is right**: a loop whose count is the same at the end of every round is left after so many rounds, or after
one. -/
theorem rounds_eq_count {count : Int}
    (hcount : ∀ k, a ≤ k → k < x → (M k).EndsAt f sh.latch → (Subject.countOf t).eval (M k).coded = count) (hk : k + 1 = x) :
    ((M k).rounds l.header : Int) + 1 = max 1 count := by
  obtain ⟨step, hstep, hspec⟩ := Subject.countOf_spec hknown
  have htested : ∀ k, (t.tested l.header).eval (M k).coded =
      t.start.evalIn (M k).coded.valuation + ((M k).rounds l.header : Int) * step.toInt := by
    intro k
    rw [ExitTest.tested, hstep]
    rfl
  rcases hspec with ⟨-, hspec⟩ | ⟨-, hspec⟩
  · have hagain : ∀ k, a ≤ k → k < x → (M k).EndsAt f sh.latch →
        (k + 1 < x ↔ ((M k).rounds l.header : Int) + 1 < count) := fun k ha hk hlatch => by
      rw [S.latch_decides C X hl hs hx ht hknown ha hk hlatch, htested, ← hcount k ha hk hlatch]
      exact hspec _ _
    obtain ⟨m, hm, hunique⟩ := runsExactly_of_lt fun round => Iff.refl ((round : Int) + 1 < count)
    have := (hunique _).mp (S.rotated C X hl hs hx hagain hk)
    omega
  · have hagain : ∀ k, a ≤ k → k < x → (M k).EndsAt f sh.latch →
        (k + 1 < x ↔ ((M k).rounds l.header : Int) + 1 ≠ count) := fun k ha hk hlatch => by
      rw [S.latch_decides C X hl hs hx ht hknown ha hk hlatch, htested, ← hcount k ha hk hlatch]
      exact (hspec _).2 _
    have hrotated : Rotated (fun round => (round : Int) + 1 ≠ count) 0 _ := S.rotated C X hl hs hx hagain hk
    obtain ⟨hends, hnever⟩ := runs_of_ne fun round => Iff.refl ((round : Int) + 1 ≠ count)
    rcases Int.lt_or_le count 1 with hlt | hle
    · exact absurd hrotated (hnever hlt _)
    · obtain ⟨m, hm, hunique⟩ := hends hle
      have := (hunique _).mp hrotated
      omega

end Stay

/-! ## Both loops -/

/-- Where every atom reads the same, an expression has the same value. -/
theorem Visit.eval_eq {f : Func} {l₁ l₂ : Loop} {p : Plan} {args : List Word} {limit N i j s t e a₁ x₁ a₂ x₂ : Nat}
    {M : Nat → Moment} {r : RunResult} (L : Layout f l₁ l₂ p) (hv : f.Valid) (C : f.Completes args limit M N r)
    (V : Visit f l₁ l₂ p M N s t e a₁ x₁ a₂ x₂) (ha₁ : a₁ ≤ i) (hx₁ : i < x₁) (ha₂ : a₂ ≤ j) (hx₂ : j < x₂) {c : SymExpr}
    (hi : ∀ x ∈ c.atoms, f.Settled (M i).block (M i).done x) (hj : ∀ x ∈ c.atoms, f.Settled (M j).block (M j).done x)
    (hx : ∀ x ∈ c.atoms, f.Unvaried l₁ x) : c.eval (M j).coded = c.eval (M i).coded :=
  SymExpr.eval_congr c fun x hmem => V.coded_eq L hv C ha₁ hx₁ ha₂ hx₂ (hi x hmem) (hj x hmem) (hx x hmem)

namespace ClearedRun

variable {f : Func} {l₁ l₂ : Loop} {p : Plan} {args : List Word} {limit N k n s t e a₁ x₁ a₂ x₂ : Nat} {M : Nat → Moment}
variable {r : RunResult} (W : ClearedRun f l₁ l₂ p args limit M N r)

include W

/-- What a count is made of is settled at the ends of the latch. -/
theorem settled_count {l : Loop} {sh : LoopShape} {t : ExitTest} (hl : l ∈ f.loops) (hs : ShapeOf f l sh) (ht : f.Tests l t)
    (hknown : (Subject.countOf t).isKnown = true) (hk : (M k).EndsAt f sh.latch) :
    ∀ x ∈ (Subject.countOf t).atoms, f.Settled (M k).block (M k).done x := by
  have hlive := hs.live_latch (isLoop_of_mem hl)
  obtain ⟨b, exchanged, c, q, m, i, T⟩ := ht.exists_instr W.valid hl hs
  refine T.of_count hknown fun o ho e he => ?_
  rw [hk.1]
  exact W.toExactRun.settled he (T.readable W.valid hlive hk.2 o ho) hlive

/-- What the count of the second loop is made of is not of the first, unless the first computes it alike in every round. -/
theorem unvaried_count {t : ExitTest} (ht : f.Tests l₂ t) (hknown : (Subject.countOf t).isKnown = true) :
    ∀ x ∈ (Subject.countOf t).atoms, f.Unvaried l₁ x := by
  have L := W.layout
  have hlive := L.shape₂.live_latch L.loop₂
  obtain ⟨b, exchanged, c, q, m, i, T⟩ := ht.exists_instr W.valid L.siblings.second L.shape₂
  have hshared := L.shared_of_term W.valid W.scalars L.latch₂_mem T.term (List.mem_singleton_self c)
  refine T.of_count hknown fun o ho e he => ?_
  cases o with
  | lit a => cases a <;> cases he <;> exact fun x hx => by cases hx
  | var v =>
    refine L.unvaried_of_shared W.valid W.scalars W.live W.entry he ?_
    exact L.shared_of_read W.valid W.scalars hshared T.instr T.dest? T.isPhi (T.dominates.live hlive) (i.mem_reads.mpr ho)

/-- **Both loops are left after the same number of rounds.** -/
theorem rounds_agree (V : Visit f l₁ l₂ p M N s t e a₁ x₁ a₂ x₂) (hk : k + 1 = x₁) (hn : n + 1 = x₂) :
    (M k).rounds l₁.header = (M n).rounds l₂.header := by
  have L := W.layout
  have C := W.completes
  have hlt₁ := V.stay₁.lt
  have hlt₂ := V.stay₂.lt
  have hle₁ : x₁ ≤ N := by have := V.le₁; have := V.turn_lt; have := V.le; omega
  have hle₂ : x₂ ≤ N := V.le₂.trans V.le
  obtain ⟨t₁, t₂, ht₁, ht₂, hsame, hknown⟩ := W.cleared.count
  obtain ⟨k', hk', -, hlatch₁, -⟩ := V.stay₁.last C W.valid.once L.siblings.first L.shape₁ hle₁
  obtain ⟨n', hn', -, hlatch₂, -⟩ := V.stay₂.last C W.valid.once L.siblings.second L.shape₂ hle₂
  obtain rfl : k = k' := by omega
  obtain rfl : n = n' := by omega
  have hcount : ∀ i j, a₁ ≤ i → i < x₁ → (M i).EndsAt f p.first.latch → a₂ ≤ j → j < x₂ → (M j).EndsAt f p.second.latch →
      (Subject.countOf t₁).eval (M j).coded = (Subject.countOf t₁).eval (M i).coded := by
    intro i j ha₁ hx₁ hi ha₂ hx₂ hj
    have hsettled₁ := W.settled_count L.siblings.first L.shape₁ ht₁ hknown hi
    have hsettled₂ := W.settled_count L.siblings.second L.shape₂ ht₂ (hsame ▸ hknown) hj
    have hunvaried := W.unvaried_count ht₂ (hsame ▸ hknown)
    rw [← hsame] at hsettled₂ hunvaried
    exact V.eval_eq L W.valid C ha₁ hx₁ ha₂ hx₂ hsettled₁ hsettled₂ hunvaried
  have hrounds₁ := V.stay₁.rounds_eq_count C W.toExactRun L.siblings.first L.shape₁ hle₁ ht₁ hknown
    (fun i ha hx hi => (hcount i n ha hx hi (by omega) (by omega) hlatch₂).symm) hk
  have hrounds₂ := V.stay₂.rounds_eq_count C W.toExactRun L.siblings.second L.shape₂ hle₂ ht₂ (hsame ▸ hknown)
    (fun j ha hx hj => hsame ▸ hcount k j (by omega) (by omega) hlatch₁ ha hx hj) hn
  rw [← hsame, ← hcount k n (by omega) (by omega) hlatch₁ (by omega) (by omega) hlatch₂] at hrounds₂
  omega

end ClearedRun

end SsaFusion
