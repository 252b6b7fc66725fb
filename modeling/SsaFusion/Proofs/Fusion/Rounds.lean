import Mathlib.Logic.Relation
import SsaFusion.Proofs.Fusion.Searches
import SsaFusion.Proofs.Fusion.Walks
import SsaFusion.Proofs.Sweep.Validity

/-!
# Fusing ends

A fusion leaves the second preheader and the second header without a way to them (`Layout.length_apply`), so whatever the
search gives back has at least two blocks less than what it searched (`fuseFirst_shrinks`). The driver is a loop of such
searches, each from scratch; `Turn` is one turn of it. Turns cannot go on for ever, and the bound on their number under
which `fuseRounds` runs is never what stops it (`fuseRounds_ends`). What can go on for ever is a search, in a function where
something is defined by way of itself.
-/

namespace SsaFusion

/-! ## Two blocks less -/

/-- A sweep leaves as many blocks as there are live ones. -/
theorem Func.length_sweep (f : Func) : f.sweep.blocks.length = f.kept.length :=
  pruneAll_induction (P := fun g => g.blocks.length = f.kept.length) (fun g hg => g.length_prune.trans hg) f.compact
    length_compact

/-- A sweep removes at least two blocks if two are dead. -/
theorem Func.length_sweep_le {f : Func} {a b : BlockId} (hne : a ≠ b) (ha : a ∈ f.unreachableBlocks)
    (hb : b ∈ f.unreachableBlocks) : f.sweep.blocks.length + 2 ≤ f.blocks.length := by
  rw [mem_unreachableBlocks] at ha hb
  have hdead : ∀ x, ¬f.Live x → x ∉ f.kept := fun x hx hk => hx (mem_kept.mp hk).2
  have hnodup : (a :: b :: f.kept).Nodup := by
    simp [hne, hdead a ha.2, hdead b hb.2, nodup_kept]
  have hsub : a :: b :: f.kept ⊆ List.range f.blocks.length := by
    intro x hx
    rw [List.mem_range]
    rcases List.mem_cons.mp hx with rfl | hx
    · exact ha.1
    · rcases List.mem_cons.mp hx with rfl | hx
      · exact hb.1
      · exact (mem_kept.mp hx).1
  have hlen := (List.subperm_of_subset hnodup hsub).length_le
  rw [List.length_cons, List.length_cons, List.length_range] at hlen
  rw [length_sweep]
  omega

namespace Layout

variable {f : Func} {l₁ l₂ : Loop} {p : Plan} {b : BlockId} (L : Layout f l₁ l₂ p)

include L

theorem dead_of_removed (hb : p.Removed b) {c : BlockId} (hstep : c ∈ f.successors b) :
    b ∈ (p.splice f).unreachableBlocks := by
  rw [Func.mem_unreachableBlocks, length_splice]
  obtain ⟨blk, hblk, _⟩ := Func.mem_successors.mp hstep
  exact ⟨(List.getElem?_eq_some_iff.mp hblk).1, fun hlive => L.kept_of_live hlive hb⟩

/-- The second preheader and the second header are gone after fusion. -/
theorem length_apply : (p.apply f).blocks.length + 2 ≤ f.blocks.length := by
  have hpre : p.second.header ∈ f.successors p.second.preheader := L.mem_successors_preheader₂.mpr rfl
  have hne : p.second.preheader ≠ p.second.header := fun e => L.preheader₂_out.2 (e ▸ L.header₂_mem)
  obtain ⟨c, hc⟩ : ∃ c, c ∈ f.successors p.second.header := by
    by_cases e : p.second.latch = p.second.header
    · exact ⟨p.second.exit, e ▸ L.shape₂.mem_successors_latch.mpr (Or.inr rfl)⟩
    · obtain ⟨c, hc, _⟩ := (L.loop₂.reaches_from_header L.latch₂_mem).cases_head.resolve_left
        fun h => e (h.symm.trans L.shape₂.header.symm)
      exact ⟨c, L.shape₂.header ▸ hc⟩
  have hshrink := Func.length_sweep_le hne (L.dead_of_removed (Or.inr (Or.inr (Or.inl rfl))) hpre)
    (L.dead_of_removed (Or.inl rfl) hc)
  rwa [length_splice] at hshrink

end Layout

/-! ## What the search gives back -/

namespace Snapshot

variable {s : Snapshot} {config : FusionConfig} {l₁ l₂ : Loop} {g : Func} {verify : Bool}

/-- What is given back after a plan is the function after that plan. -/
theorem eq_apply_of_carryOut {p : Plan} (h : (s.carryOut p verify).value = .ok g) : g = p.apply s.func := by
  have hvalue : (p.splice s.func).sweepTraced.value.func = p.apply s.func := (p.splice s.func).value_sweepTraced
  unfold carryOut at h
  split at h
  · cases h
  · simp only [Traced.value_bind, hvalue] at h
    split at h
    · split at h
      · cases h
      · cases h
        rfl
    · cases h
      rfl

/-- Verification lets only valid functions through. -/
theorem valid_of_carryOut {p : Plan} (h : (s.carryOut p true).value = .ok g) : g.isValid = true := by
  unfold carryOut at h
  split at h
  · cases h
  · simp only [Traced.value_bind, if_true] at h
    split at h
    · cases h
    · rename_i hnone
      cases h
      exact Option.isNone_iff_eq_none.mpr hnone

/-- A fused function comes from a plan. -/
theorem plan_of_fuse {v : Legality} {memo : Memo} (h : (s.fuse l₁ l₂ v verify).answer? memo = some (.ok g)) :
    ∃ p, (s.plan l₁ l₂ v).run.answer? memo = some (.ok p) ∧ (s.carryOut p verify).value = .ok g := by
  obtain ⟨memo', h⟩ := Inquiry.answer?_eq_some_iff.mp h
  obtain ⟨r, memo₁, hplan, h⟩ := Inquiry.bind_eq_some_iff.mp h
  cases r with
  | error e => cases h
  | ok p =>
    refine ⟨p, Inquiry.answer?_eq_some_iff.mpr ⟨memo₁, hplan⟩, ?_⟩
    obtain ⟨_, memo₂, -, h⟩ := Inquiry.bind_eq_some_iff.mp h
    exact Inquiry.Gives.take_inv ⟨memo₂, Inquiry.answer?_eq_some_iff.mpr ⟨memo', h⟩⟩

/-- A pair is fused only if it is legal. -/
theorem fuse_of_tryPair {pair : Nat} (h : (s.tryPair config l₁ l₂ pair).Gives (some g)) :
    (s.legality l₁ l₂ pair).Gives .legal ∧ (s.fuse l₁ l₂ .legal config.verify).Gives (.ok g) := by
  unfold tryPair at h
  split at h
  · obtain ⟨_, _, h⟩ := h.bind_inv
    cases h.pure_inv
  · obtain ⟨v, hv, h⟩ := h.bind_inv
    split at h
    · rename_i hlegal
      obtain rfl : v = .legal := by simpa [Legality.isLegal] using hlegal
      obtain ⟨r, hr, h⟩ := h.bind_inv
      cases r with
      | ok fused =>
        obtain ⟨_, _, h⟩ := Inquiry.Gives.bind_inv (β := Option Func) h
        cases h.pure_inv
        exact ⟨hv, hr⟩
      | error e =>
        obtain ⟨_, _, h⟩ := Inquiry.Gives.bind_inv (β := Option Func) h
        cases h.pure_inv
    · cases h.pure_inv

/-- What the search gives back is the fusion of one of its pairs, which is legal. -/
theorem fuse_of_fuseFirst {pairs : List (Loop × Loop)} {tried n : Nat}
    (h : (s.fuseFirst config pairs tried).Gives (some g, n)) :
    ∃ l₁ l₂ pair, (l₁, l₂) ∈ pairs ∧ (s.legality l₁ l₂ pair).Gives .legal ∧
      (s.fuse l₁ l₂ .legal config.verify).Gives (.ok g) := by
  induction pairs generalizing tried with
  | nil => cases h.pure_inv
  | cons pair rest ih =>
    obtain ⟨r, hr, h⟩ := h.bind_inv
    cases r with
    | some fused =>
      cases h.pure_inv
      obtain ⟨hlegal, hfuse⟩ := fuse_of_tryPair hr
      exact ⟨pair.1, pair.2, tried + 1, List.mem_cons_self .., hlegal, hfuse⟩
    | none =>
      obtain ⟨l₁, l₂, n', hmem, hrest⟩ := ih h
      exact ⟨l₁, l₂, n', List.mem_cons_of_mem _ hmem, hrest⟩

/-- Every fusion makes a function smaller by two blocks or more. -/
theorem fuseFirst_shrinks {f : Func} {tried n : Nat}
    (h : ((Snapshot.of f).fuseFirst config (Snapshot.of f).candidates tried).Gives (some g, n)) :
    g.blocks.length + 2 ≤ f.blocks.length := by
  obtain ⟨l₁, l₂, pair, hpair, hlegal, memo, hfuse⟩ := fuse_of_fuseFirst h
  obtain ⟨p, hplan, hcarry⟩ := plan_of_fuse hfuse
  rw [eq_apply_of_carryOut hcarry]
  exact (layout_of_plan hpair hlegal ⟨memo, hplan⟩).length_apply

/-- What the search gives back is valid if it is verified, and has only live blocks. -/
theorem valid_of_fuseFirst (hverify : config.verify = true) {pairs : List (Loop × Loop)} {tried n : Nat}
    (h : (s.fuseFirst config pairs tried).Gives (some g, n)) : g.isValid = true ∧ ∀ b, b < g.blocks.length → g.Live b := by
  obtain ⟨l₁, l₂, pair, -, -, memo, hfuse⟩ := fuse_of_fuseFirst h
  rw [hverify] at hfuse
  obtain ⟨p, -, hcarry⟩ := plan_of_fuse hfuse
  refine ⟨valid_of_carryOut hcarry, fun b hb => ?_⟩
  rw [eq_apply_of_carryOut hcarry] at hb ⊢
  exact Func.live_sweep hb

end Snapshot

/-! ## The driver -/

/-- Where the driver stands between two searches. -/
structure DriverState where
  func : Func
  fusions : Nat := 0
  tried : Nat := 0

namespace DriverState

variable (config : FusionConfig) (a : DriverState)

/-- More fusions are allowed. -/
def mayFuse : Bool := config.maxFusions.all fun most => decide (a.fusions < most)

/-- What a search that knows nothing yet finds, unless it goes on for ever. -/
def search? : Option (Option Func × Nat) :=
  ((Snapshot.of a.func).fuseFirst config (Snapshot.of a.func).candidates a.tried).answer? {}

/-- The driver starts a search that goes on for ever. -/
def hangs : Bool := a.mayFuse config && (a.search? config).isNone

end DriverState

/-- One turn of the driver: more fusions are allowed, and the search finds a pair. -/
structure Turn (config : FusionConfig) (a b : DriverState) : Prop where
  allowed : a.mayFuse config = true
  found : a.search? config = some (some b.func, b.tried)
  counted : b.fusions = a.fusions + 1

namespace Turn

variable {config : FusionConfig} {a b : DriverState}

theorem shrinks (h : Turn config a b) : b.func.blocks.length + 2 ≤ a.func.blocks.length :=
  Snapshot.fuseFirst_shrinks ⟨{}, h.found⟩

/-- Turns cannot go on for ever. -/
theorem wellFounded (config : FusionConfig) : WellFounded fun b a => Turn config a b := by
  refine Subrelation.wf (r := fun b a : DriverState => b.func.blocks.length < a.func.blocks.length) (fun {b a} h => ?_)
    (measure fun a : DriverState => a.func.blocks.length).wf
  have := h.shrinks
  omega

/-- Each fusion is paid for by two blocks. -/
theorem cost (h : Relation.ReflTransGen (Turn config) a b) :
    2 * b.fusions + b.func.blocks.length ≤ 2 * a.fusions + a.func.blocks.length := by
  induction h with
  | refl => exact Nat.le_refl _
  | tail _ hturn ih =>
    have := hturn.shrinks
    rw [hturn.counted]
    omega

/-- A driver that verifies stays with functions where nothing is defined by way of itself. -/
theorem acyclic (hverify : config.verify = true) (h : Relation.ReflTransGen (Turn config) a b)
    (ha : (Snapshot.of a.func).Acyclic) : (Snapshot.of b.func).Acyclic := by
  rcases Relation.ReflTransGen.cases_tail h with rfl | ⟨c, -, hturn⟩
  · exact ha
  · obtain ⟨hvalid, hlive⟩ := Snapshot.valid_of_fuseFirst hverify ⟨{}, hturn.found⟩
    exact Snapshot.acyclic_of_valid (Func.isValid_iff.mp hvalid) hlive

end Turn

theorem DriverState.hangs_of_acyclic {config : FusionConfig} {a : DriverState} (h : (Snapshot.of a.func).Acyclic) :
    a.hangs config = false := by
  obtain ⟨found, hfound⟩ := (h.fuseFirst_ends config (Snapshot.of a.func).candidates a.tried).answers {}
  rw [hangs, search?, hfound]
  simp

namespace Func

/-- Enough rounds run the driver to a state in which it has no turn left: there it stops, unless the search hangs. -/
theorem fuseRounds_ends (config : FusionConfig) {rounds : Nat} {a : DriverState}
    (hk : a.func.blocks.length < 2 * rounds) :
    ∃ e, Relation.ReflTransGen (Turn config) a e ∧ (∀ b, ¬Turn config e b) ∧
      (fuseRounds config rounds a.func a.fusions a.tried).result? =
        if e.hangs config then none else some (e.func, e.fusions) := by
  induction rounds generalizing a with
  | zero => omega
  | succ k ih =>
    unfold fuseRounds
    split
    · rename_i hallowed
      have hallowed : a.mayFuse config = true := hallowed
      rw [Attempt.result?_bind]
      cases hrun : (((Snapshot.of a.func).fuseFirst config (Snapshot.of a.func).candidates a.tried).run {}).result? with
      | none =>
        have hsearch : a.search? config = none := by rw [DriverState.search?, Inquiry.answer?, hrun, Option.map_none]
        refine ⟨a, .refl, fun b hb => ?_, ?_⟩
        · cases hsearch.symm.trans hb.found
        · rw [DriverState.hangs, hallowed, hsearch]
          rfl
      | some found =>
        obtain ⟨⟨fused?, tried⟩, memo⟩ := found
        have hsearch : a.search? config = some (fused?, tried) := by
          rw [DriverState.search?, Inquiry.answer?, hrun, Option.map_some]
        cases fused? with
        | none =>
          refine ⟨a, .refl, fun b hb => ?_, ?_⟩
          · cases hsearch.symm.trans hb.found
          · rw [DriverState.hangs, hallowed, hsearch]
            rfl
        | some fused =>
          have hturn : Turn config a ⟨fused, a.fusions + 1, tried⟩ := ⟨hallowed, hsearch, rfl⟩
          have := hturn.shrinks
          obtain ⟨e, hreach, hend, hvalue⟩ := ih (a := ⟨fused, a.fusions + 1, tried⟩) (by omega)
          exact ⟨e, .head hturn hreach, hend, hvalue⟩
    · rename_i hfull
      have hfull : ¬a.mayFuse config = true := hfull
      refine ⟨a, .refl, fun b hb => hfull hb.allowed, ?_⟩
      rw [DriverState.hangs, Bool.eq_false_of_not_eq_true hfull]
      rfl

/-- What the driver gives back is where its turns end, unless the search hangs there. -/
theorem fuseLoops_turns (f : Func) (config : FusionConfig) :
    ∃ e, Relation.ReflTransGen (Turn config) { func := f } e ∧ (∀ b, ¬Turn config e b) ∧
      (f.fuseLoops config).result? = if e.hangs config then none else some ⟨e.func, decide (0 < e.fusions)⟩ := by
  have hrounds : f.blocks.length < 2 * (f.blocks.length + 1) := by omega
  obtain ⟨e, hreach, hend, hrun⟩ := fuseRounds_ends config (a := { func := f }) hrounds
  refine ⟨e, hreach, hend, ?_⟩
  unfold fuseLoops
  rw [Attempt.result?_bind, hrun]
  cases e.hangs config with
  | true => rfl
  | false =>
    simp only [Bool.false_eq_true, if_false, Option.bind_some]
    split <;> rfl

/-- What the driver gives back is where its turns end. -/
theorem turns_of_fuseLoops {f : Func} {config : FusionConfig} {c : Change} (h : (f.fuseLoops config).result? = some c) :
    ∃ e, Relation.ReflTransGen (Turn config) { func := f } e ∧ c = ⟨e.func, decide (0 < e.fusions)⟩ := by
  obtain ⟨e, hreach, -, hresult⟩ := fuseLoops_turns f config
  rw [h] at hresult
  split at hresult
  · cases hresult
  · exact ⟨e, hreach, Option.some.inj hresult⟩

/-- A driver that verifies has a result where nothing is defined by way of itself. -/
theorem exists_fuseLoops {f : Func} {config : FusionConfig} (hverify : config.verify = true)
    (hf : (Snapshot.of f).Acyclic) : ∃ c, (f.fuseLoops config).result? = some c := by
  obtain ⟨e, hreach, -, hresult⟩ := fuseLoops_turns f config
  rw [DriverState.hangs_of_acyclic (Turn.acyclic hverify hreach hf)] at hresult
  exact ⟨_, hresult⟩

/-- **When and where the fusion driver ends**, for every function and every configuration. Each search that fuses a pair
gives back at least two blocks less than it was given, whatever was known before. So no state of the driver starts an
endless run of turns, and from the start every run of turns pays two blocks for each fusion. The turns lead to a state with
no turn left, after at most half as many fusions as the function has blocks. The driver gives back that state, unless its
last search goes on for ever. No search does where nothing is defined by way of itself, and a driver that verifies comes to
no other functions from there. A valid function without unreachable blocks is of that kind. -/
theorem fuseLoops_ends (f : Func) (config : FusionConfig) :
    (∀ (memo : Memo) (tried : Nat) (g : Func) (n : Nat),
      ((Snapshot.of f).fuseFirst config (Snapshot.of f).candidates tried).answer? memo = some (some g, n) →
        g.blocks.length + 2 ≤ f.blocks.length) ∧
    (WellFounded fun b a => Turn config a b) ∧
    (∀ e, Relation.ReflTransGen (Turn config) { func := f } e →
      2 * e.fusions + e.func.blocks.length ≤ f.blocks.length) ∧
    (∃ e, Relation.ReflTransGen (Turn config) { func := f } e ∧ (∀ b, ¬Turn config e b) ∧
      2 * e.fusions ≤ f.blocks.length ∧
      (f.fuseLoops config).result? = if e.hangs config then none else some ⟨e.func, decide (0 < e.fusions)⟩) ∧
    (∀ a : DriverState, (Snapshot.of a.func).Acyclic → a.hangs config = false) ∧
    ((Snapshot.of f).Acyclic → config.verify = true → ∃ c, (f.fuseLoops config).result? = some c) ∧
    (f.isValid = true → f.unreachableBlocks = [] → (Snapshot.of f).Acyclic) := by
  have hcost : ∀ e, Relation.ReflTransGen (Turn config) { func := f } e →
      2 * e.fusions + e.func.blocks.length ≤ f.blocks.length := by
    intro e he
    simpa using Turn.cost he
  obtain ⟨e, hreach, hend, hresult⟩ := fuseLoops_turns f config
  have hhalf := hcost e hreach
  refine ⟨fun memo tried g n h => Snapshot.fuseFirst_shrinks ⟨memo, h⟩, Turn.wellFounded config, hcost,
    ⟨e, hreach, hend, by omega, hresult⟩, fun a => DriverState.hangs_of_acyclic, fun hf hverify => exists_fuseLoops hverify hf,
    fun hf hall => Snapshot.acyclic_of_valid (isValid_iff.mp hf) fun b => live_of_all_reachable hall⟩

end Func

/-- Two counting loops. The first is also entered from a block that is never run, from where it counts on from a value that
is defined by way of itself. -/
def circledStart : Func where
  name := "circledStart"
  blocks := [
    { instrs := [
        { op := .phi 0 [(4, .var 6), (0, .var 1)] },
        { op := .binary .add 1 (.var 0) (.lit (.int 1)) },
        { op := .binary .lt 2 (.var 1) (.lit (.int 4)) }],
      term := .branch (.var 2) 0 1 },
    { term := .jump 2 },
    { instrs := [
        { op := .phi 3 [(1, .lit (.int 0)), (2, .var 4)] },
        { op := .binary .add 4 (.var 3) (.lit (.int 1)) },
        { op := .binary .lt 5 (.var 4) (.lit (.int 4)) }],
      term := .branch (.var 5) 2 3 },
    { term := .ret [] },
    { instrs := [
        { op := .binary .add 6 (.var 7) (.lit (.int 1)) },
        { op := .binary .add 7 (.var 6) (.lit (.int 1)) }],
      term := .jump 0 }]

/-- Two counting loops, the first of which stores to an address that is defined by way of itself. -/
def circledAddress : Func where
  name := "circledAddress"
  blocks := [
    { term := .jump 1 },
    { instrs := [
        { op := .phi 0 [(0, .lit (.int 0)), (1, .var 1)] },
        { op := .shift 6 (.var 6) (.lit (.int 0)) },
        { op := .store (.var 6) (.var 0) },
        { op := .binary .add 1 (.var 0) (.lit (.int 1)) },
        { op := .binary .lt 2 (.var 1) (.lit (.int 4)) }],
      term := .branch (.var 2) 1 2 },
    { term := .jump 3 },
    { instrs := [
        { op := .phi 3 [(2, .lit (.int 0)), (3, .var 4)] },
        { op := .binary .add 4 (.var 3) (.lit (.int 1)) },
        { op := .binary .lt 5 (.var 4) (.lit (.int 4)) }],
      term := .branch (.var 5) 3 4 },
    { term := .ret [] }]

/-- The search for a pair to fuse need not end, not even in a valid function: an expression may have to be built from itself
first, and an address may lead back to itself. -/
theorem circled_searches_hang :
    (circledStart.isValid = true ∧ DriverState.hangs {} { func := circledStart } = true ∧
      (circledStart.fuseLoops {}).result?.isNone = true ∧
      ¬∃ e memo', (Snapshot.of circledStart).Answers (.var 1) {} e memo') ∧
    DriverState.hangs {} { func := circledAddress } = true ∧ (circledAddress.fuseLoops {}).result?.isNone = true ∧
      ¬∃ r memo', (Snapshot.of circledAddress).Follows 6 (.const 0) {} r memo' := by
  have hexpr : ((Snapshot.of circledStart).exprOf (.var 1) {}).isNone = true := by decide +kernel
  have haddress : ((Snapshot.of circledAddress).locationOf (.var 6) {}).isNone = true := by decide +kernel
  rw [Option.isNone_iff_eq_none] at hexpr haddress
  refine ⟨⟨by decide +kernel, by decide +kernel, by decide +kernel, ?_⟩, by decide +kernel, by decide +kernel, ?_⟩
  · rintro ⟨e, memo', h⟩
    cases hexpr.symm.trans (Subject.exprOf_eq_some_iff.mpr h)
  · rintro ⟨r, memo', h⟩
    cases haddress.symm.trans (Snapshot.locationOf_eq_some_iff.mpr h)

end SsaFusion
