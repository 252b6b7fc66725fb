import SsaFusion.Pipeline.Optimize
import SsaFusion.Proofs.Fusion.Rounds

/-!
# Reports of changes

A pass says whether it changed a function, and the reports of all passes over all functions are joined. That is exact only
because no pass can undo what another did: every pass that reports a change leaves a smaller function, in blocks or, with
as many blocks, in instructions, and every other pass leaves the function as it was (`Honest`). Smaller functions are
different, and being smaller goes through a sequence of passes (`Honest.andThen`).
-/

namespace SsaFusion

namespace Func

variable {f g h : Func}

/-- A function with fewer blocks, or with as many blocks and fewer instructions. -/
def Smaller (g f : Func) : Prop :=
  g.blocks.length < f.blocks.length ∨ g.blocks.length = f.blocks.length ∧ g.instrs.length < f.instrs.length

theorem Smaller.trans (h₁ : h.Smaller g) (h₂ : g.Smaller f) : h.Smaller f := by
  unfold Smaller at *
  omega

theorem Smaller.ne (h : g.Smaller f) : g ≠ f := by
  rintro rfl
  unfold Smaller at h
  omega

end Func

/-- A report on what became of a function is right: the function is smaller, or there was no change. -/
inductive Honest (f : Func) : Change → Prop
  | changed {g : Func} : g.Smaller f → Honest f ⟨g, true⟩
  | same : Honest f ⟨f, false⟩

namespace Honest

variable {f : Func} {c : Change}

/-- The reports of two changes in a row are joined. -/
theorem andThen {g : Func} {modified : Bool} (h : Honest f ⟨g, modified⟩) (hc : Honest g c) :
    Honest f ⟨c.func, modified || c.modified⟩ := by
  cases h with
  | same =>
    rw [Bool.false_or]
    exact hc
  | changed hsmaller =>
    cases hc with
    | changed hsmaller' => exact .changed (hsmaller'.trans hsmaller)
    | same => exact .changed hsmaller

theorem modified_iff (h : Honest f c) : c.modified = true ↔ c.func ≠ f := by
  cases h with
  | changed hsmaller => exact ⟨fun _ => hsmaller.ne, fun _ => rfl⟩
  | same => exact ⟨Bool.noConfusion, fun h => absurd rfl h⟩

end Honest

/-! ## Sweeps -/

namespace Func

variable {f : Func}

/-- Pruning removes an instruction or nothing at all. -/
theorem pruneAll_same_or_fewer (f : Func) : f.pruneAll = f ∨ f.pruneAll.instrs.length < f.instrs.length := by
  fun_induction pruneAll f with
  | case1 f hfewer ih =>
    rcases ih with hsame | hless
    · exact Or.inr (hsame.symm ▸ hfewer)
    · exact Or.inr (hless.trans hfewer)
  | case2 f _ => exact Or.inl rfl

theorem smaller_sweep_of_dead (h : f.unreachableBlocks ≠ []) : f.sweep.Smaller f := by
  obtain ⟨b, hb⟩ := List.exists_mem_of_ne_nil _ h
  have hlt : f.kept.length < f.blockIds.length :=
    List.length_filter_lt_length_iff_exists.mpr
      ⟨b, List.mem_range.mpr (mem_unreachableBlocks.mp hb).1, by simpa using hb⟩
  rw [blockIds, List.length_range, ← length_sweep] at hlt
  exact Or.inl hlt

theorem sweepTraced_honest (f : Func) : Honest f f.sweepTraced.value := by
  rw [sweepTraced_value]
  by_cases hdead : f.unreachableBlocks = []
  · have hcompact : f.compact = f := if_pos (List.isEmpty_iff.mpr hdead)
    have hblocks : f.sweep.blocks.length = f.blocks.length := by
      rw [length_sweep, ← length_compact, hcompact]
    rcases f.compact.pruneAll_same_or_fewer with hsame | hfewer
    · have hsweep : f.sweep = f := hsame.trans hcompact
      rw [hdead, hsweep, hcompact]
      simpa using Honest.same
    · have hfewer : f.sweep.instrs.length < f.compact.instrs.length := hfewer
      rw [decide_eq_true hfewer, Bool.or_true]
      rw [hcompact] at hfewer
      exact .changed (Or.inr ⟨hblocks, hfewer⟩)
  · have hreport : (!f.unreachableBlocks.isEmpty) = true := by simpa using hdead
    rw [hreport, Bool.true_or]
    exact .changed (smaller_sweep_of_dead hdead)

/-! ## Fusion -/

/-- A fusion pays in blocks; without one nothing is done. -/
theorem fuseLoops_honest {config : FusionConfig} {c : Change} (h : (f.fuseLoops config).result? = some c) :
    Honest f c := by
  obtain ⟨e, hreach, rfl⟩ := turns_of_fuseLoops h
  rcases Nat.eq_zero_or_pos e.fusions with hnone | hsome
  · have hstart : e = { func := f } := by
      refine (Relation.ReflTransGen.cases_tail hreach).resolve_right ?_
      rintro ⟨d, _, hturn⟩
      exact absurd hturn.counted (by omega)
    rw [hstart]
    exact .same
  · have hcost := Turn.cost hreach
    rw [decide_eq_true hsome]
    exact .changed (Or.inl (by simp only at hcost; omega))

end Func

/-! ## Passes and stages -/

theorem Pass.run_honest {f : Func} {p : Pass} {c : Change} (h : (p.run f).result? = some c) : Honest f c := by
  cases p with
  | fusion config => exact Func.fuseLoops_honest h
  | deadCode =>
    cases h
    exact f.sweepTraced_honest
  | validation =>
    cases h
    exact .same

namespace Stage

theorem run_honest {f : Func} {s : Stage} {c : Change} (h : (s.run f).result? = some c) : Honest f c := by
  unfold run at h
  split at h
  · exact Pass.run_honest h
  · cases h
    exact .same

/-- Stages add to a report that is right so far. -/
theorem runAll_honest {f₀ f : Func} {modified : Bool} (h : Honest f₀ ⟨f, modified⟩) {stages : List Stage} {c : Change}
    (hc : (runAll f modified stages).result? = some c) : Honest f₀ c := by
  induction stages generalizing f modified with
  | nil =>
    cases hc
    exact h
  | cons s rest ih =>
    rw [result?_runAll_cons] at hc
    obtain ⟨d, hd, hc⟩ := Option.bind_eq_some_iff.mp hc
    exact ih (h.andThen (run_honest hd)) hc

/-- Stages over a list of functions report a change exactly if the list changes. -/
theorem runOver_modified {stages : List Stage} {fs : List Func} {r : List Func × Bool}
    (h : (runOver stages fs).result? = some r) : r.2 = true ↔ r.1 ≠ fs := by
  induction fs generalizing r with
  | nil =>
    cases h
    simp
  | cons f rest ih =>
    rw [result?_runOver_cons] at h
    obtain ⟨c, hc, h⟩ := Option.bind_eq_some_iff.mp h
    obtain ⟨r', hr', rfl⟩ := Option.map_eq_some_iff.mp h
    have hf := (runAll_honest .same hc).modified_iff
    simp only [Bool.or_eq_true, ne_eq, List.cons.injEq, hf, ih hr']
    exact not_and_or.symm

end Stage

theorem Program.finish_cases (p : Program) (c : Config) (fs : List Func) (modified : Bool) :
    (∃ d, p.finish c fs modified = ⟨{ p with funcs := fs }, .error (.invalidOutput d)⟩) ∨
      p.finish c fs modified = ⟨{ p with funcs := fs }, .ok modified⟩ := by
  rw [finish]
  cases ({ p with funcs := fs } : Program).checkedDefect? c with
  | some d => exact Or.inl ⟨d, rfl⟩
  | none => exact Or.inr rfl

/-- **The report of an optimisation is exact**, for every program and every configuration: an optimisation without an error
reports a change exactly if the program is another one afterwards, and a program that is refused is left as it was. -/
theorem Program.optimize_reports (p : Program) (c : Config) :
    (∀ q b, (p.optimize c).result? = some ⟨q, .ok b⟩ → (b = true ↔ q ≠ p)) ∧
    ∀ q d, (p.optimize c).result? = some ⟨q, .error (.invalidInput d)⟩ → q = p := by
  cases hin : p.checkedDefect? c with
  | some d =>
    have hresult : (p.optimize c).result? = some ⟨p, .error (.invalidInput d)⟩ := by rw [optimize, hin]; rfl
    rw [hresult]
    exact ⟨fun q b h => (by cases h), fun q d' h => by cases h; rfl⟩
  | none =>
    cases hstages : c.level.stages? c.fusion with
    | none =>
      have hresult : (p.optimize c).result? = some ⟨p, .ok false⟩ := by rw [optimize, hin, hstages]; rfl
      rw [hresult]
      refine ⟨fun q b h => ?_, fun q d h => by cases h⟩
      cases h
      simp
    | some stages =>
      simp only [result?_optimize hin hstages, Option.map_eq_some_iff]
      refine ⟨?_, ?_⟩
      · rintro q b ⟨r, hr, h⟩
        obtain ⟨d, hfinish⟩ | hfinish := p.finish_cases c r.1 r.2 <;> cases hfinish.symm.trans h
        rw [Stage.runOver_modified hr, ne_eq, ne_eq, not_iff_not]
        exact ⟨fun h => by rw [h], fun h => congrArg Program.funcs h⟩
      · rintro q d ⟨r, hr, h⟩
        obtain ⟨d', hfinish⟩ | hfinish := p.finish_cases c r.1 r.2 <;> cases hfinish.symm.trans h

end SsaFusion
