import SsaFusion.Pipeline.Optimize
import SsaFusion.Proofs.Fusion.Rounds
import SsaFusion.Proofs.Fusion.Validity

/-!
# Optimising valid programs

Every pass turns a valid function into a valid function of the same name: a sweep does (`Valid.sweep`), and a fusion that
verifies keeps nothing else (`fuseLoops_validAs`). So do the stages of a pipeline, one after another and over all functions
(`Stage.runOver_valid`). A program is valid if its names fit its functions and its functions are valid
(`Program.defect?_eq_none`), both of which optimising keeps.

Of the passes only fusion may go on for ever, so the stages over all functions end if and only if each fusion among them
does (`Program.optimize_ends_iff`).
-/

namespace SsaFusion

namespace Func

/-- A valid function with a given name. -/
structure ValidAs (name : String) (f : Func) : Prop where
  valid : f.isValid = true
  named : f.name = name

/-! ## Names -/

@[simp] theorem name_compact (f : Func) : f.compact.name = f.name := by rw [compact_eq]

@[simp] theorem name_sweep (f : Func) : f.sweep.name = f.name :=
  pruneAll_induction (P := fun g => g.name = f.name) (fun _ h => h) f.compact f.name_compact

theorem ValidAs.sweep {n : String} {f : Func} (h : f.ValidAs n) : f.sweep.ValidAs n :=
  ⟨isValid_iff.mpr (isValid_iff.mp h.valid).sweep, f.name_sweep.trans h.named⟩

end Func

@[simp] theorem Plan.name_splice (p : Plan) (f : Func) : (p.splice f).name = f.name := by
  have hunify : (p.unifyInduction f).name = f.name := by
    unfold unifyInduction
    split <;> rfl
  have hglue : ∀ k : Func, (p.guards.elim k fun g => p.relocateGlue g k).name = k.name := by
    intro k
    cases p.guards <;> rfl
  have hrewire : ∀ k : Func, (p.rewire k).name = k.name := by
    intro k
    unfold rewire
    cases p.second.body <;> rfl
  calc (p.splice f).name = (p.guards.elim (p.unifyInduction f) fun g => p.relocateGlue g (p.unifyInduction f)).name :=
        hrewire _
    _ = f.name := (hglue _).trans hunify

/-! ## Fusion -/

/-- A turn of a driver that verifies leads to a valid function of the same name. -/
theorem Turn.validAs {config : FusionConfig} (hverify : config.verify = true) {a b : DriverState} {n : String}
    (hturn : Turn config a b) (ha : a.func.ValidAs n) : b.func.ValidAs n := by
  obtain ⟨l₁, l₂, pair, -, -, memo, hfuse⟩ := Snapshot.fuse_of_fuseFirst ⟨{}, hturn.found⟩
  obtain ⟨p, -, hcarry⟩ := Snapshot.plan_of_fuse hfuse
  refine ⟨(Snapshot.valid_of_fuseFirst hverify ⟨{}, hturn.found⟩).1, ?_⟩
  rw [Snapshot.eq_apply_of_carryOut hcarry]
  exact (Func.name_sweep _).trans ((p.name_splice _).trans ha.named)

/-- Fusion keeps a function valid: each search starts over from a verified result. -/
theorem Func.fuseLoops_validAs {config : FusionConfig} (hverify : config.verify = true) {f : Func} {n : String}
    (hf : f.ValidAs n) {c : Change} (h : (f.fuseLoops config).result? = some c) : c.func.ValidAs n := by
  obtain ⟨e, hreach, rfl⟩ := turns_of_fuseLoops h
  clear h
  induction hreach with
  | refl => exact hf
  | tail _ hturn ih => exact hturn.validAs hverify ih

/-! ## Passes and stages -/

/-- A pass whose fusions are verified. -/
def Pass.Verified : Pass → Prop
  | fusion config => config.verify = true
  | deadCode | validation => True

theorem Pass.run_validAs {p : Pass} (hp : p.Verified) {f : Func} {n : String} (hf : f.ValidAs n) {c : Change}
    (h : (p.run f).result? = some c) : c.func.ValidAs n := by
  cases p with
  | fusion config => exact Func.fuseLoops_validAs hp hf h
  | deadCode =>
    cases h
    rw [Func.value_sweepTraced]
    exact hf.sweep
  | validation =>
    cases h
    exact hf

namespace Stage

variable {f : Func} {n : String} {c : Change} {stages : List Stage}

theorem run_validAs {s : Stage} (hs : s.pass.Verified) (hf : f.ValidAs n) (h : (s.run f).result? = some c) :
    c.func.ValidAs n := by
  unfold run at h
  split at h
  · exact s.pass.run_validAs hs hf h
  · cases h
    exact hf

theorem runAll_validAs (hs : ∀ s ∈ stages, s.pass.Verified) (hf : f.ValidAs n) {modified : Bool}
    (h : (runAll f modified stages).result? = some c) : c.func.ValidAs n := by
  induction stages generalizing f modified with
  | nil =>
    cases h
    exact hf
  | cons s rest ih =>
    rw [List.forall_mem_cons] at hs
    rw [result?_runAll_cons] at h
    obtain ⟨d, hd, h⟩ := Option.bind_eq_some_iff.mp h
    exact ih hs.2 (run_validAs hs.1 hf hd) h

/-- Stages keep every function of a list valid, and all names. -/
theorem runOver_valid (hs : ∀ s ∈ stages, s.pass.Verified) {fs : List Func} (hfs : ∀ f ∈ fs, f.isValid = true)
    {r : List Func × Bool} (h : (runOver stages fs).result? = some r) :
    r.1.map Func.name = fs.map Func.name ∧ ∀ f ∈ r.1, f.isValid = true := by
  induction fs generalizing r with
  | nil =>
    cases h
    exact ⟨rfl, nofun⟩
  | cons f rest ih =>
    rw [List.forall_mem_cons] at hfs
    rw [result?_runOver_cons] at h
    obtain ⟨d, hd, h⟩ := Option.bind_eq_some_iff.mp h
    obtain ⟨r', hr', rfl⟩ := Option.map_eq_some_iff.mp h
    obtain ⟨hnames, hvalid⟩ := ih hfs.2 hr'
    have hf := runAll_validAs hs ⟨hfs.1, rfl⟩ hd
    exact ⟨congrArg₂ List.cons hf.named hnames, List.forall_mem_cons.mpr ⟨hf.valid, hvalid⟩⟩

/-! ## Stages that end -/

/-- Cleaning up ends. -/
theorem basic_ends (f : Func) (modified : Bool) : ∃ c, (runAll f modified basic).result? = some c := by
  simp only [basic, result?_runAll_cons]
  exact ⟨_, rfl⟩

/-- Stages of which only the first may go on for ever end if it does. -/
theorem runAll_ends_iff {s : Stage} (hrest : ∀ g modified, ∃ c, (runAll g modified stages).result? = some c)
    {modified : Bool} :
    (∃ c, (runAll f modified (s :: stages)).result? = some c) ↔ ∃ c, (s.run f).result? = some c := by
  simp only [result?_runAll_cons, Option.bind_eq_some_iff]
  constructor
  · rintro ⟨c, d, hd, -⟩
    exact ⟨d, hd⟩
  · rintro ⟨d, hd⟩
    obtain ⟨c, hc⟩ := hrest d.func (modified || d.modified)
    exact ⟨c, d, hd, hc⟩

/-- Stages over a list of functions end if they do for each. -/
theorem runOver_ends_iff {fs : List Func} :
    (∃ r, (runOver stages fs).result? = some r) ↔ ∀ f ∈ fs, ∃ c, (runAll f false stages).result? = some c := by
  induction fs with
  | nil => exact ⟨fun _ => nofun, fun _ => ⟨_, rfl⟩⟩
  | cons f rest ih =>
    rw [List.forall_mem_cons, ← ih]
    simp only [result?_runOver_cons, Option.bind_eq_some_iff, Option.map_eq_some_iff]
    constructor
    · rintro ⟨_, c, hc, r, hr, -⟩
      exact ⟨⟨c, hc⟩, r, hr⟩
    · rintro ⟨⟨c, hc⟩, r, hr⟩
      exact ⟨_, c, hc, r, hr, rfl⟩

/-- Fusion for functions with at least two loops ends if the driver does. -/
theorem standard_ends_iff {config : FusionConfig} :
    (∃ c, (runAll f false (standard config)).result? = some c) ↔
      (f.hasLoopPair = true → ∃ c, (f.fuseLoops config).result? = some c) := by
  rw [standard, runAll_ends_iff basic_ends, run]
  split
  · rename_i hpair
    exact ⟨fun h _ => h, fun h => h hpair⟩
  · rename_i hpair
    exact ⟨fun _ h => absurd h hpair, fun _ => ⟨_, rfl⟩⟩

end Stage

theorem OptLevel.stages_verified {c : Config} (hverify : c.fusion.verify = true) {stages : List Stage}
    (h : c.level.stages? c.fusion = some stages) : ∀ s ∈ stages, s.pass.Verified := by
  unfold OptLevel.stages? at h
  split at h
  · cases h
  · cases h
    simp [Stage.basic, Pass.Verified]
  · cases h
    simp [Stage.standard, Stage.basic, Pass.Verified, hverify]

/-! ## Programs -/

namespace Program

variable {p : Program}

/-- A name of the table fits if it points at a function that carries it. -/
theorem nameDefect?_eq_none {name : String} {id : FuncId} :
    p.nameDefect? name id = none ↔ (p.funcs.map Func.name)[id]? = some name := by
  unfold nameDefect? func?
  rw [List.getElem?_map]
  cases p.funcs[id]? with
  | none => simp
  | some f => simp

/-- What a program without defects is. -/
theorem defect?_eq_none :
    p.defect? = none ↔
      (∀ e ∈ p.names.entries, (p.funcs.map Func.name)[e.2]? = some e.1) ∧ (p.funcs.map Func.name).Nodup ∧
        ∀ f ∈ p.funcs, f.isValid = true := by
  simp only [defect?, Option.orElse_eq_orElse, Option.orElse_eq_or, Option.or_eq_none_iff, List.findSome?_eq_none_iff,
    nameDefect?_eq_none, Option.map_eq_none_iff, Func.firstRepeat_eq_none, Func.isValid, Option.isNone_iff_eq_none]
  simp

theorem checkedDefect?_of_valid {c : Config} (h : p.defect? = none) : p.checkedDefect? c = none := by
  rw [checkedDefect?, h, ite_self]

/-- Optimising a valid program ends if fusion does in every function that has two loops, or is not asked for. -/
theorem optimize_ends_iff {c : Config} (h : p.defect? = none) :
    (∃ o, (p.optimize c).result? = some o) ↔
      (c.level = .standard → ∀ f ∈ p.funcs, f.hasLoopPair = true → ∃ d, (f.fuseLoops c.fusion).result? = some d) := by
  have hin := checkedDefect?_of_valid (c := c) h
  cases hlevel : c.level with
  | none =>
    have hstages : c.level.stages? c.fusion = none := by rw [hlevel]; rfl
    rw [optimize, hin, hstages]
    exact ⟨fun _ h => (by cases h), fun _ => ⟨_, rfl⟩⟩
  | basic =>
    have hstages : c.level.stages? c.fusion = some Stage.basic := by rw [hlevel]; rfl
    simp only [result?_optimize hin hstages, Option.map_eq_some_iff]
    have hends : ∀ f ∈ p.funcs, ∃ d, (Stage.runAll f false Stage.basic).result? = some d :=
      fun f _ => Stage.basic_ends f false
    obtain ⟨r, hr⟩ := Stage.runOver_ends_iff.mpr hends
    exact ⟨fun _ h => (by cases h), fun _ => ⟨_, r, hr, rfl⟩⟩
  | standard =>
    have hstages : c.level.stages? c.fusion = some (Stage.standard c.fusion) := by rw [hlevel]; rfl
    simp only [result?_optimize hin hstages, Option.map_eq_some_iff, ← Stage.standard_ends_iff, ← Stage.runOver_ends_iff]
    exact ⟨fun h _ => h.elim fun _ h => h.imp fun _ h => h.1, fun h => (h trivial).elim fun r hr => ⟨_, r, hr, rfl⟩⟩

/-- If optimising a valid program ends, there is no error and the result is valid. -/
theorem valid_of_optimize {c : Config} (hverify : c.fusion.verify = true) (h : p.defect? = none) {o : Optimized}
    (ho : (p.optimize c).result? = some o) : (∃ modified, o.result = .ok modified) ∧ o.program.defect? = none := by
  have hin := checkedDefect?_of_valid (c := c) h
  cases hstages : c.level.stages? c.fusion with
  | none =>
    rw [optimize, hin, hstages] at ho
    cases ho
    exact ⟨⟨false, rfl⟩, h⟩
  | some stages =>
    rw [result?_optimize hin hstages] at ho
    obtain ⟨r, hr, rfl⟩ := Option.map_eq_some_iff.mp ho
    obtain ⟨hentries, hnodup, hvalid⟩ := defect?_eq_none.mp h
    obtain ⟨hnames, hvalid'⟩ := Stage.runOver_valid (OptLevel.stages_verified hverify hstages) hvalid hr
    have hq : ({ p with funcs := r.1 } : Program).defect? = none := by
      rw [defect?_eq_none]
      simp only [hnames]
      exact ⟨hentries, hnodup, hvalid'⟩
    rw [finish, checkedDefect?_of_valid hq]
    exact ⟨⟨r.2, rfl⟩, hq⟩

end Program

/-- **Optimising keeps programs valid.** Whatever the configuration, as long as its fusions are verified, optimising a valid
program gives no error and a valid program if it ends. It ends if and only if fusion does in every function that has two
loops, or is not asked for; so it ends if nothing in a function is defined by way of itself, as in every valid function
without unreachable blocks. A sweep on its own always ends and turns valid functions into valid functions. -/
theorem Program.optimize_valid (p : Program) (c : Config) (hp : p.defect? = none) (hverify : c.fusion.verify = true) :
    (∀ o, (p.optimize c).result? = some o → (∃ modified, o.result = .ok modified) ∧ o.program.defect? = none) ∧
    ((∃ o, (p.optimize c).result? = some o) ↔
      (c.level = .standard → ∀ f ∈ p.funcs, f.hasLoopPair = true → ∃ d, (f.fuseLoops c.fusion).result? = some d)) ∧
    ((∀ f ∈ p.funcs, f.unreachableBlocks = [] ∨ (Snapshot.of f).Acyclic) → ∃ o, (p.optimize c).result? = some o) ∧
    ∀ f : Func, f.isValid = true → ∃ d, (Pass.deadCode.run f).result? = some d ∧ d.func.isValid = true := by
  refine ⟨fun o => valid_of_optimize hverify hp, optimize_ends_iff hp, fun hfs => ?_, fun f hf => ?_⟩
  · refine (optimize_ends_iff hp).mpr fun _ f hf _ => Func.exists_fuseLoops hverify ?_
    have hvalid := Func.isValid_iff.mp ((defect?_eq_none.mp hp).2.2 f hf)
    exact (hfs f hf).elim (fun hall => Snapshot.acyclic_of_valid hvalid fun b => Func.live_of_all_reachable hall) id
  · exact ⟨_, rfl, (Pass.deadCode.run_validAs trivial ⟨hf, rfl⟩ rfl).valid⟩

/-- A program of one function with two loops that fusion makes one. -/
def twoCountsProgram : Program where
  funcs := [twoCounts]
  names := Table.ofList [("twoCounts", 0)]

theorem twoCountsProgram_optimize_valid :
    twoCountsProgram.defect? = none ∧ Config.checked.fusion.verify = true ∧
      (∃ o, (twoCountsProgram.optimize .checked).result? = some o ∧ (∃ modified, o.result = .ok modified) ∧
        o.program.defect? = none) ∧
      twoCounts.isValid = true ∧ ∃ d, (Pass.deadCode.run twoCounts).result? = some d ∧ d.func.isValid = true := by
  have hp : twoCountsProgram.defect? = none := by decide +kernel
  have hf : twoCounts.isValid = true := by decide +kernel
  have hall : ∀ f ∈ twoCountsProgram.funcs, f.unreachableBlocks = [] := by decide +kernel
  obtain ⟨hvalid, -, hends, hsweep⟩ := Program.optimize_valid twoCountsProgram .checked hp rfl
  obtain ⟨o, ho⟩ := hends fun f hf => Or.inl (hall f hf)
  exact ⟨hp, rfl, ⟨o, ho, hvalid o ho⟩, hf, hsweep _ hf⟩

/-- A program of one function in which a loop starts from a value that is defined by way of itself. -/
def circledStartProgram : Program where
  funcs := [circledStart]
  names := Table.ofList [("circledStart", 0)]

/-- Optimising a valid program need not end. -/
theorem circledStartProgram_never_optimized :
    circledStartProgram.defect? = none ∧ (circledStartProgram.optimize .checked).result?.isNone :=
  ⟨by decide +kernel, by decide +kernel⟩

end SsaFusion
