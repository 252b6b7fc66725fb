import SsaFusion.Proofs.Fusion.Fidelity
import SsaFusion.Proofs.Fusion.Rounds
import SsaFusion.Proofs.Fusion.Simulation
import SsaFusion.Proofs.Fusion.Validity

/-!
# Fusion keeps what a run returns

A function that is fused by a plan returns what it returned before in every run that is faithful to the plan
(`Planned.run_apply`): both runs start alike (`FusedRun.apart_start`), and from there on the fused run follows the other
(`FusedRun.returns`). The driver fuses pair after pair, so it keeps what a run returns if each function on its way runs
faithfully to the plan that is made for it (`fuseLoops_keeps_results`), and so if each is planned carefully and runs without
wrap-around (`fuseLoops_keeps_exact_results`). The gates cannot see to that alone: they compare trip counts in exact arithmetic,
and the machine wraps around (`wrappedCounts_result_changes`).
-/

namespace SsaFusion

open Plan (phiDests bodyDests)

/-! ## One fusion -/

@[simp] theorem Func.params_sweep (f : Func) : f.sweep.params = f.params :=
  pruneAll_induction (P := fun g => g.params = f.params) (fun _ h => h) f.compact params_compact

@[simp] theorem Func.entry_sweep (f : Func) : f.sweep.entry = f.label f.entry :=
  pruneAll_induction (P := fun g => g.entry = f.label f.entry) (fun _ h => h) f.compact entry_compact

namespace FusedRun

variable {f : Func} {l₁ l₂ : Loop} {p : Plan} {args : List Word} {limit N : Nat} {M : Nat → Moment} {r : RunResult}
variable (W : FusedRun f l₁ l₂ p args limit M N r)

include W

/-- Both runs start alike. -/
theorem apart_start : Apart f p M 0 ((p.apply f).start args).machine := by
  have L := W.layout
  have hstart := W.completes.start (W.completes.moment 0 (Nat.zero_le N))
  have hmachine : ((p.apply f).start args).machine = (f.start args).machine := by simp [Func.start, Plan.apply]
  rw [hmachine]
  refine ⟨by rw [hstart]; rfl, ⟨fun _ => none, ?_⟩, by rw [hstart], fun _ hav => ?_⟩
  · rw [hstart]
    refine Store.Named.refl _ rfl fun v x hx => ?_
    rcases Table.mem_or_get?_of_insertAll hx with hx | hx
    · obtain ⟨n, _, rfl⟩ := List.mem_map.mp (List.of_mem_zip hx).2
      rfl
    · cases hx
  · -- at the entry, the induction variable of the second loop is not there yet
    rw [hstart] at hav
    rcases hav with hpar | ⟨d, hd, hvd⟩
    · exact absurd hpar (Func.not_mem_params W.valid.once (Layout.mem_destsAt.mpr (Or.inl L.induction₂_mem)))
    · rw [Func.destsAt_unique W.valid.once hvd (Layout.mem_destsAt.mpr (Or.inl L.induction₂_mem))] at hd
      exact absurd (Func.eq_entry_of_dominates hd) (L.late_ne_entry (Or.inl (Or.inl rfl)))

/-- **The fused function returns what the function returns**, as long as that is plain data. -/
theorem run_apply (hplain : ∀ x ∈ r.values, ∀ ρ, x.rename ρ = some x) :
    ∃ r', (p.apply f).run args limit = .ok r' ∧ r'.values = r.values := by
  have L := W.layout
  have hM := W.completes.moment 0 (Nat.zero_le N)
  have hentry : (M 0).block = f.entry := by rw [W.completes.start hM]; rfl
  have hlen : args.length = (p.apply f).params.length := by
    rw [Plan.apply, Func.params_sweep, Layout.params_splice]
    exact Func.length_args_of_moment? hM
  refine Func.Returns.run hlen ?_
  have hlabel : (p.apply f).entry = p.label f (M 0).block := by
    rw [hentry, Plan.apply, Func.entry_sweep, Layout.entry_splice]
    rfl
  rw [hlabel]
  by_cases htop : f.entry = p.top
  · refine W.returns hplain (Nat.zero_le N) ?_ (fun _ => hentry.trans htop) W.apart_start
    rw [hentry, htop]
    exact L.not_back_of_front Layout.top_front
  · obtain ⟨hfront, hback⟩ := L.outside_of_reaches (.refl htop)
    rw [← hentry] at hfront hback
    exact W.returns hplain (Nat.zero_le N) hback (fun h => absurd h hfront) W.apart_start

end FusedRun

/-! ## The driver -/

namespace Planned

variable {f : Func} {l₁ l₂ : Loop} {p : Plan} {args : List Word} {limit : Nat} {r : RunResult} (h : Planned f l₁ l₂ p)

include h

/-- A fused function returns what the function returns in a run that is faithful to the plan. -/
theorem run_apply (hf : f.Valid) (hfused : (p.apply f).Valid) (hrun : f.run args limit = .ok r)
    (hplain : ∀ x ∈ r.values, ∀ ρ, x.rename ρ = some x) (hfaithful : Faithful f l₁ l₂ p args limit) :
    ∃ r', (p.apply f).run args limit = .ok r' ∧ r'.values = r.values := by
  obtain ⟨M, N, hM⟩ := Func.exists_completes hrun
  exact FusedRun.run_apply ⟨h.pairRun hf hM, hfused, hfaithful⟩ hplain

end Planned

theorem Datum.rename_of_plain {x : Datum} (h : x.kind ≠ .pointer) (ρ : Nat → Option Nat) : x.rename ρ = some x := by
  cases x with
  | ptr => exact absurd rfl h
  | int | bool => rfl

/-- A turn of the driver keeps what a run returns, if the run is faithful to the plan of the turn. -/
theorem Turn.keeps {config : FusionConfig} (hverify : config.verify = true) {a b : DriverState} (h : Turn config a b)
    {l₁ l₂ : Loop} {p : Plan} (hp : Planned a.func l₁ l₂ p) (hb : p.apply a.func = b.func) (hf : a.func.Valid)
    {args : List Word} {limit : Nat} {r : RunResult} (hrun : a.func.run args limit = .ok r)
    (hplain : ∀ x ∈ r.values, x.kind ≠ .pointer) (hfaithful : Faithful a.func l₁ l₂ p args limit) :
    b.func.Valid ∧ ∃ r', b.func.run args limit = .ok r' ∧ r'.values = r.values := by
  have hfused := Func.isValid_iff.mp (Snapshot.valid_of_fuseFirst hverify ⟨{}, h.found⟩).1
  obtain ⟨r', hrun', hr'⟩ := hp.run_apply hf (hb ▸ hfused) hrun (fun x hx => Datum.rename_of_plain (hplain x hx)) hfaithful
  exact ⟨hfused, r', hb ▸ hrun', hr'⟩

/-- All turns of the driver keep what a run returns, if the run before each turn is faithful to the plan of the turn. -/
theorem Func.keeps_results_of_turns {f : Func} (hf : f.isValid = true) {config : FusionConfig} (hverify : config.verify = true)
    {args : List Word} {limit : Nat} {r : RunResult} (hrun : f.run args limit = .ok r)
    (hplain : ∀ x ∈ r.values, x.kind ≠ .pointer)
    (hturns : ∀ a b r', Relation.ReflTransGen (Turn config) { func := f } a → Turn config a b →
      a.func.run args limit = .ok r' →
      ∃ l₁ l₂ p, Planned a.func l₁ l₂ p ∧ p.apply a.func = b.func ∧ Faithful a.func l₁ l₂ p args limit) {c : Change}
    (hc : (f.fuseLoops config).result? = some c) : ∃ r', c.func.run args limit = .ok r' ∧ r'.values = r.values := by
  obtain ⟨e, hreach, rfl⟩ := turns_of_fuseLoops hc
  have hkeeps : ∀ a, Relation.ReflTransGen (Turn config) { func := f } a →
      a.func.Valid ∧ ∃ r', a.func.run args limit = .ok r' ∧ r'.values = r.values := by
    intro a ha
    induction ha with
    | refl => exact ⟨isValid_iff.mp hf, r, hrun, rfl⟩
    | @tail a b ha hturn ih =>
      obtain ⟨hvalid, r₁, hrun₁, hr₁⟩ := ih
      obtain ⟨l₁, l₂, p, hp, hb, hfaithful⟩ := hturns a b r₁ ha hturn hrun₁
      obtain ⟨hvalid', r₂, hrun₂, hr₂⟩ := hturn.keeps hverify hp hb hvalid hrun₁ (hr₁ ▸ hplain) hfaithful
      exact ⟨hvalid', r₂, hrun₂, hr₂.trans hr₁⟩
  exact (hkeeps e hreach).2

/-- **Fusion keeps what a run returns.** Let a valid function return plain data on some arguments within a budget, and let
the driver verify what it fuses. In each of its turns the driver carries out a plan for a pair of loops that passed all gates.
If the run of the function before the turn is faithful to that plan each time, then the function after all turns returns the
same data on the same arguments within the same budget. There is such a function unless something is defined by way of
itself. -/
theorem Func.fuseLoops_keeps_results (f : Func) (hf : f.isValid = true) (config : FusionConfig)
    (hverify : config.verify = true) (args : List Word) (limit : Nat) (r : RunResult) (hrun : f.run args limit = .ok r)
    (hplain : ∀ x ∈ r.values, x.kind ≠ .pointer)
    (hfaithful : ∀ a b, Relation.ReflTransGen (Turn config) { func := f } a → Turn config a b →
      ∃ l₁ l₂ p, Planned a.func l₁ l₂ p ∧ p.apply a.func = b.func ∧ Faithful a.func l₁ l₂ p args limit) :
    (∀ c, (f.fuseLoops config).result? = some c → ∃ r', c.func.run args limit = .ok r' ∧ r'.values = r.values) ∧
      ((Snapshot.of f).Acyclic → ∃ c, (f.fuseLoops config).result? = some c) := by
  refine ⟨fun c hc => keeps_results_of_turns hf hverify hrun hplain (fun a b _ ha hturn _ => ?_) hc, exists_fuseLoops hverify⟩
  exact hfaithful a b ha hturn

/-- **Without wrap-around, the gates are enough.** Let the driver carry out carefully made plans only. If no arithmetic wraps
around in the run of the function before each turn, then the function after all turns returns the same data on the same
arguments within the same budget. -/
theorem Func.fuseLoops_keeps_exact_results (f : Func) (hf : f.isValid = true) (config : FusionConfig)
    (hverify : config.verify = true) (args : List Word) (limit : Nat) (r : RunResult) (hrun : f.run args limit = .ok r)
    (hplain : ∀ x ∈ r.values, x.kind ≠ .pointer)
    (hcareful : ∀ a b, Relation.ReflTransGen (Turn config) { func := f } a → Turn config a b →
      a.func.ExactRun args limit ∧ ∃ l₁ l₂ p, CarefullyPlanned a.func l₁ l₂ p ∧ p.apply a.func = b.func) :
    (∀ c, (f.fuseLoops config).result? = some c → ∃ r', c.func.run args limit = .ok r' ∧ r'.values = r.values) ∧
      ((Snapshot.of f).Acyclic → ∃ c, (f.fuseLoops config).result? = some c) := by
  refine ⟨fun c hc => keeps_results_of_turns hf hverify hrun hplain (fun a b r' ha hturn hrun' => ?_) hc,
    exists_fuseLoops hverify⟩
  obtain ⟨hexact, l₁, l₂, p, hp, hb⟩ := hcareful a b ha hturn
  exact ⟨l₁, l₂, p, hp.planned, hb, hp.faithful hexact hrun'⟩

/-- Fills an array with numbers, then adds them up. -/
def fillSum : Func where
  name := "fillSum"
  params := [0]
  blocks := [
    { instrs := [{ op := .alloc 1 4 }], term := .jump 1 },
    { instrs := [
        { op := .phi 2 [(0, .lit (.int 0)), (1, .var 4)] }, { op := .shift 3 (.var 1) (.var 2) },
        { op := .store (.var 3) (.var 2) }, { op := .binary .add 4 (.var 2) (.lit (.int 1)) },
        { op := .binary .lt 5 (.var 4) (.var 0) }],
      term := .branch (.var 5) 1 2 },
    { term := .jump 3 },
    { instrs := [
        { op := .phi 6 [(2, .lit (.int 0)), (3, .var 11)] }, { op := .phi 7 [(2, .lit (.int 0)), (3, .var 10)] },
        { op := .shift 8 (.var 1) (.var 6) }, { op := .load 9 (.var 8) }, { op := .binary .add 10 (.var 7) (.var 9) },
        { op := .binary .add 11 (.var 6) (.lit (.int 1)) }, { op := .binary .lt 12 (.var 11) (.var 0) }],
      term := .branch (.var 12) 3 4 },
    { term := .ret [.var 10] }]

/-- The loops of the function. -/
def fillSumLoops : Loop × Loop := (fillSum.loops.headD default, fillSum.loops.getLastD default)

/-- The plan for them. -/
def fillSumPlan : Plan where
  first := { header := 1, latch := 1, preheader := 0, exit := 2, induction := 2, body := none }
  second := { header := 3, latch := 3, preheader := 2, exit := 4, induction := 6, body := none }
  guards := none
  unify := true

theorem fillSum_exact : fillSum.ExactRun [2] 32 := by
  have hexact : ∀ k < 33, ∀ M ∈ fillSum.moment? [2] 32 k, ∀ i ∈ fillSum.instrAt? M.block M.done,
      ∀ q ∈ M.machine.arithmetic? i.op, q.1.toInt = q.2 := by decide +kernel
  refine ⟨Func.isValid_iff.mp (by decide +kernel), by decide, fun b => Func.live_of_all_reachable (by decide +kernel), ?_⟩
  intro k M i w z hM hi hq
  have hlt : k < 33 := by
    have := Func.moment?_steps hM
    omega
  exact Int.modEq_zero_iff.mpr (hexact k hlt M hM i hi (w, z) hq)

/-- The only address of the first loop is so many cells behind the array as rounds have passed. -/
theorem fillSum_offset {q : Position} {w : Bool} {v : ValueId} {P : Location} (ht : fillSum.Touches q (.var v) w)
    (hq : q.block = 1) (hP : fillSum.Traces v (.const 0) P) : P.offset = .recur (.const 0) (.const 1) 1 := by
  have haddress : ∀ i ∈ fillSum.instrsOf 1, ∀ a ∈ Snapshot.accessOf i.op, a.1 = .var 3 := by decide
  have h₃ : fillSum.definingOp? 3 = some (.shift 3 (.var 1) (.var 2)) := by decide
  have h₁ : fillSum.definingOp? 1 = some (.alloc 1 4) := by decide
  have h₂ : (Snapshot.of fillSum).carefulExprOf? 2 = some (.recur (.const 0) (.const 1) 1) := by decide +kernel
  have hoffset : (SymExpr.const 0).plus (.recur (.const 0) (.const 1) 1) = .recur (.const 0) (.const 1) 1 := by decide +kernel
  obtain rfl : v = 3 := by
    cases ht with
    | load hi hop | store hi hop =>
      rw [hq] at hi
      exact Operand.var.inj (haddress _ (List.mem_of_getElem? hi) (.var v, _) (by rw [hop]; rfl))
  -- from the address one shift leads to the array
  cases hP with
  | copy hop | array hop => cases h₃.symm.trans hop
  | param hv => exact absurd hv (by decide)
  | shift hop hcells hbase =>
    cases h₃.symm.trans hop
    cases h₂.symm.trans hcells
    cases hbase with
    | shift hop | copy hop => cases h₁.symm.trans hop
    | param hv => exact absurd hv (by decide)
    | array => exact hoffset

theorem fillSum_careful : CarefullyPlanned fillSum fillSumLoops.1 fillSumLoops.2 fillSumPlan := by
  let s := Snapshot.of fillSum
  have hasked : ((((s.legality fillSumLoops.1 fillSumLoops.2 1).run {}).result?).bind fun a =>
      (((s.plan fillSumLoops.1 fillSumLoops.2 .legal).run.run a.2).result?).map fun b =>
        (a.1, b.1, b.2.entries.all (fun q => s.carefulExprOf? q.1 == some q.2),
          a.2.entries.all fun q => b.2.get? q.1 == some q.2)) = some (.legal, .ok fillSumPlan, true, true) := by
    decide +kernel
  obtain ⟨⟨a, memo⟩, hlegal, hrest⟩ := Option.bind_eq_some_iff.mp hasked
  obtain ⟨⟨b, known⟩, hplan, hfacts⟩ := Option.map_eq_some_iff.mp hrest
  simp only [Prod.mk.injEq, List.all_eq_true, beq_iff_eq] at hfacts
  obtain ⟨rfl, rfl, hcareful, hext⟩ := hfacts
  have hheader : fillSumLoops.1.header = 1 ∧ fillSumLoops.1.blocks = [1] := by decide +kernel
  refine ⟨by decide +kernel, ⟨known, 1, Func.careful_of_entries hcareful, ⟨{}, memo, hlegal, fun v e hv => ?_⟩,
    ⟨memo, known, hplan, .refl _⟩⟩, fun ht hq hP => ?_, fun g hg => by cases hg⟩
  · exact hext (v, e) (Table.mem_entries_of_get? hv)
  · rw [hheader.2, List.mem_singleton] at hq
    rw [fillSum_offset ht hq hP, hheader.1]
    simp [SymExpr.CountsOutermost]

theorem fillSum_faithful : Faithful fillSum fillSumLoops.1 fillSumLoops.2 fillSumPlan [2] 32 :=
  fillSum_careful.faithful fillSum_exact (show fillSum.run [2] 32 = .ok ⟨[.int 1], 32, 7⟩ by decide +kernel)

/-- Filling and adding up is one loop after fusion. -/
theorem fillSum_keeps_results :
    fillSum.run [2] 32 = .ok ⟨[.int 1], 32, 7⟩ ∧
      ∃ c, (fillSum.fuseLoops {}).result? = some c ∧ c.modified = true ∧
        ∃ r', c.func.run [2] 32 = .ok r' ∧ r'.values = [.int 1] := by
  have hrun : fillSum.run [2] 32 = .ok ⟨[.int 1], 32, 7⟩ := by decide +kernel
  have hvalid : fillSum.isValid = true := by decide +kernel
  have hfirst : ({ func := fillSum } : DriverState).search? {} = some (some (fillSumPlan.apply fillSum), 1) := by
    decide +kernel
  have hthen : ∀ n, (DriverState.search? {} ⟨fillSumPlan.apply fillSum, n, 1⟩).map Prod.fst = some none := by
    intro n
    show (DriverState.search? {} ⟨fillSumPlan.apply fillSum, 0, 1⟩).map Prod.fst = some none
    decide +kernel
  have hmodified : (fillSum.fuseLoops {}).result?.map Change.modified = some true := by decide +kernel
  obtain ⟨c, hc, hchange⟩ := Option.map_eq_some_iff.mp hmodified
  refine ⟨hrun, c, hc, hchange, ?_⟩
  refine (Func.fuseLoops_keeps_results fillSum hvalid {} rfl [2] 32 _ hrun (by decide) ?_).1 c hc
  -- there is one turn, and none after it
  have hturns : ∀ c d, Turn {} { func := fillSum } c → ¬Turn {} c d := by
    intro c d hc hd
    have hfound := Option.some.inj (hc.found.symm.trans hfirst)
    obtain ⟨hfunc, htried⟩ := Prod.mk.inj hfound
    obtain ⟨g, n, m⟩ := c
    obtain rfl : g = fillSumPlan.apply fillSum := Option.some.inj hfunc
    obtain rfl : m = 1 := htried
    have hnone := hthen n
    rw [hd.found] at hnone
    cases hnone
  intro a b ha hturn
  rcases Relation.ReflTransGen.cases_head ha with rfl | ⟨c, hc, hca⟩
  · have hb := congrArg Prod.fst (Option.some.inj (hturn.found.symm.trans hfirst))
    exact ⟨_, _, _, fillSum_careful.planned, (Option.some.inj hb).symm, fillSum_faithful⟩
  · rcases Relation.ReflTransGen.cases_head hca with rfl | ⟨d, hd, _⟩
    · exact absurd hturn (hturns _ _ hc)
    · exact absurd hd (hturns _ _ hc)

/-- Counts from one parameter to another, while the two differ, and again, while the one is less than the other. -/
def wrappedCounts : Func where
  name := "wrappedCounts"
  params := [0, 1]
  blocks := [
    { term := .jump 1 },
    { instrs := [
        { op := .phi 2 [(0, .var 0), (1, .var 3)] }, { op := .binary .add 3 (.var 2) (.lit (.int 1)) },
        { op := .binary .ne 4 (.var 2) (.var 1) }],
      term := .branch (.var 4) 1 2 },
    { term := .jump 3 },
    { instrs := [
        { op := .phi 5 [(2, .var 0), (3, .var 6)] }, { op := .phi 8 [(2, .lit (.int 0)), (3, .var 9)] },
        { op := .binary .add 6 (.var 5) (.lit (.int 1)) }, { op := .binary .add 9 (.var 8) (.lit (.int 1)) },
        { op := .binary .lt 7 (.var 5) (.var 1) }],
      term := .branch (.var 7) 3 4 },
    { term := .ret [.var 9] }]

/-- From the greatest word it is one step to the least, and both loops have the same trip count. But the second loop is left
after one round, for the greatest word is not less than the least; in the fused loop it has two. -/
theorem wrappedCounts_result_changes :
    wrappedCounts.isValid = true ∧ wrappedCounts.run [.maxValue, .minValue] 20 = .ok ⟨[.int 1], 17, 6⟩ ∧
      (wrappedCounts.fuseLoops {}).result?.map (fun c => (c.modified, c.func.run [.maxValue, .minValue] 20)) =
        some (true, .ok ⟨[.int 2], 14, 4⟩) :=
  ⟨by decide +kernel, by decide +kernel, by decide +kernel⟩

end SsaFusion
