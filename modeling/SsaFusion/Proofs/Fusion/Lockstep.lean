import SsaFusion.Proofs.Fusion.Gates

/-!
# Adjacent loops run in lockstep

Two unguarded siblings, the second adjacent to the first and equivalent to it, share one block: the first leaves to it and
the second is entered from it. That the first dominates the second would still let another edge lead there; that both
have the same parent does not (`Func.Siblings.into_between`). So along any path the second loop is entered exactly where
the first has just been left (`Joined.enters`, `Joined.leaves`).
-/

namespace SsaFusion

variable {f : Func} {l₁ l₂ : Loop}

/-- How unguarded siblings that pass the gates about control flow are joined: the only edge that leaves the first goes
from a block `last` to a block `between`, which goes to the second header only. -/
structure Joined (f : Func) (l₁ l₂ : Loop) (last between : BlockId) : Prop where
  siblings : f.Siblings l₁ l₂
  exitEdge : l₁.exitEdge = some (last, between)
  preheader : l₂.preheader = some between
  dominates : f.Dominates l₁.header l₂.header

theorem joined_of_gates (hs : f.Siblings l₁ l₂) (hg₁ : l₁.guard = none) (hg₂ : l₂.guard = none)
    (hadj : ((Snapshot.of f).isAdjacent l₁ l₂).value = true) (heq : ((Snapshot.of f).isEquivalent l₁ l₂).value = true) :
    ∃ last between, Joined f l₁ l₂ last between := by
  obtain ⟨between, hexit, hpre⟩ := Snapshot.exit_eq_preheader_of_isAdjacent hadj hg₁ hg₂
  obtain ⟨⟨last, _⟩, hedge, rfl⟩ := Option.map_eq_some_iff.mp hexit
  have hdom := (Snapshot.gateway_of_isEquivalent heq).1
  rw [Loop.gateway, Loop.gateway, hg₁, hg₂] at hdom
  exact ⟨last, _, hs, hedge, hpre, (Func.dominators_dominates_of_live (isLoop_of_mem hs.second).live).mp hdom⟩

namespace Joined

variable {last between a b c : BlockId} {u w : List BlockId} (J : Joined f l₁ l₂ last between)

include J

theorem loop₁ : IsLoop f l₁ := isLoop_of_mem J.siblings.first

theorem loop₂ : IsLoop f l₂ := isLoop_of_mem J.siblings.second

theorem successors_between : f.successors between = [l₂.header] := (J.loop₂.preheader_spec J.preheader).2.2.1

/-- Only the last block of the first loop leads to the block between the loops. -/
theorem into_between_iff : f.Live a ∧ between ∈ f.successors a ↔ a = last := by
  obtain ⟨hlast, hedge, -, -⟩ := J.loop₁.exitEdge_spec J.exitEdge
  constructor
  · rintro ⟨ha, hs⟩
    exact J.siblings.into_between J.exitEdge J.preheader J.dominates ha hs
  · rintro rfl
    exact ⟨J.loop₁.live_of_mem hlast, hedge⟩

theorem between_ne_entry : between ≠ f.entry := by
  rintro rfl
  -- the path of two blocks from the entry would miss the first loop
  have hpath : Path f.successors f.entry [f.entry, l₂.header] l₂.header :=
    .cons (by simp [J.successors_between]) (.single _)
  obtain ⟨-, -, hout, -⟩ := J.loop₁.exitEdge_spec J.exitEdge
  rcases List.mem_cons.mp (J.dominates _ hpath) with h | h
  · exact hout (h ▸ J.loop₁.header_mem)
  · exact J.siblings.ne (List.mem_singleton.mp h)

theorem entry_not_mem : f.entry ∉ l₂.blocks := by
  intro hmem
  have hentry := Func.eq_entry_of_dominates (J.loop₂.dominates_of_mem hmem)
  exact J.loop₂.header_ne_entry J.preheader hentry

/-- A path that gets into the second loop comes from the first. -/
theorem enters (h : Path f.successors f.entry (u ++ a :: b :: w) c) (ha : a ∉ l₂.blocks) (hb : b ∈ l₂.blocks) :
    (∃ t, u = t ++ [last]) ∧ a = between ∧ b = l₂.header := by
  have hlive : f.Live a := ⟨_, h.split.1⟩
  have hhead : b = l₂.header := by
    by_contra hne
    exact ha (J.loop₂.mem_of_step hb hne hlive h.step)
  have hbetween : a = between := (J.loop₂.preheader_spec J.preheader).2.2.2 a hlive (hhead ▸ h.step) ha
  refine ⟨?_, hbetween, hhead⟩
  subst hbetween
  rcases List.eq_nil_or_concat u with rfl | ⟨t, x, rfl⟩
  · exact absurd (Path.head_eq h) J.between_ne_entry
  · have h' : Path f.successors f.entry (t ++ x :: a :: (b :: w)) c := by simpa using h
    exact ⟨t, by rw [J.into_between_iff.mp ⟨⟨_, h'.split.1⟩, h'.step⟩, List.concat_eq_append]⟩

/-- A path that leaves the first loop gets into the second. -/
theorem leaves (h : Path f.successors f.entry (u ++ a :: b :: w) c) (ha : a ∈ l₁.blocks) (hb : b ∉ l₁.blocks) :
    a = last ∧ b = between ∧ ∀ d ∈ w.head?, d = l₂.header := by
  obtain ⟨rfl, rfl⟩ := (J.loop₁.exitEdge_spec J.exitEdge).2.2.2 a ha b h.step hb
  refine ⟨rfl, rfl, fun d hd => ?_⟩
  obtain ⟨rest, rfl⟩ : ∃ rest, w = d :: rest := by
    cases w with
    | nil => cases hd
    | cons x rest => exact ⟨rest, by rw [Option.some.inj hd]⟩
  have h' : Path f.successors f.entry ((u ++ [a]) ++ b :: d :: rest) c := by simpa using h
  simpa [J.successors_between] using h'.step

end Joined

/-- **Unguarded adjacent siblings run in lockstep.** If two loops with the same parent pass the gates of adjacency and of
control flow without guards, the only live block that leads to the preheader of the second is the block by which the first
is left. So a path from the entry enters the second loop only right after it has left the first, by way of that preheader,
and having left the first it has no way on but into the second. -/
theorem lockstep (f : Func) {l₁ l₂ : Loop} (hl₁ : l₁ ∈ f.loops) (hl₂ : l₂ ∈ f.loops) (hne : l₁ ≠ l₂)
    (hparent : l₁.parent = l₂.parent) (hg₁ : l₁.guard = none) (hg₂ : l₂.guard = none)
    (hadj : ((Snapshot.of f).isAdjacent l₁ l₂).value = true) (heq : ((Snapshot.of f).isEquivalent l₁ l₂).value = true) :
    ∃ last between, l₁.exiting = some last ∧ l₁.exit = some between ∧ l₂.preheader = some between ∧
      (∀ a, f.Live a ∧ between ∈ f.successors a ↔ a = last) ∧
      f.entry ∉ l₂.blocks ∧ f.successors between = [l₂.header] ∧
      ∀ u a b w c, Path f.successors f.entry (u ++ a :: b :: w) c →
        (a ∉ l₂.blocks → b ∈ l₂.blocks → (∃ t, u = t ++ [last]) ∧ a = between ∧ b = l₂.header) ∧
        (a ∈ l₁.blocks → b ∉ l₁.blocks → a = last ∧ b = between ∧ ∀ d ∈ w.head?, d = l₂.header) := by
  have hs : f.Siblings l₁ l₂ := ⟨hl₁, hl₂, fun e => hne (Func.eq_of_header_eq hl₁ hl₂ e), hparent⟩
  obtain ⟨last, between, J⟩ := joined_of_gates hs hg₁ hg₂ hadj heq
  have hexiting : l₁.exiting = some last := by simp [Loop.exiting, J.exitEdge]
  have hexit : l₁.exit = some between := by simp [Loop.exit, J.exitEdge]
  exact ⟨last, between, hexiting, hexit, J.preheader, fun a => J.into_between_iff, J.entry_not_mem,
    J.successors_between, fun u a b w c h => ⟨J.enters h, J.leaves h⟩⟩

/-- Two loops of one block each, one right after the other, inside a loop. -/
def pairInLoop : Func where
  name := "pairInLoop"
  params := [0]
  blocks := [
    { instrs := [{ op := .binary .lt 1 (.var 0) (.lit (.int 10)) }], term := .jump 1 },
    { term := .jump 2 },
    { term := .jump 3 },
    { term := .branch (.var 1) 3 4 },
    { term := .jump 5 },
    { term := .branch (.var 1) 5 6 },
    { term := .branch (.var 1) 1 7 },
    { term := .ret [] }]

def pairInLoopLoops : Loop × Loop := (pairInLoop.loops[1]?.getD default, pairInLoop.loops[2]?.getD default)

/-- Only block 3 leads to block 4, and block 5 is entered from there only, in every round of the outer loop. -/
theorem pairInLoop_lockstep :
    (∀ a, pairInLoop.Live a ∧ 4 ∈ pairInLoop.successors a ↔ a = 3) ∧
      ∀ u a b w c, Path pairInLoop.successors 0 (u ++ a :: b :: w) c →
        (a ≠ 5 → b = 5 → (∃ t, u = t ++ [3]) ∧ a = 4) ∧ (a = 3 → b ≠ 3 → b = 4 ∧ ∀ d ∈ w.head?, d = 5) := by
  have hblocks : pairInLoopLoops.1.blocks = [3] ∧ pairInLoopLoops.2.blocks = [5] := by decide +kernel
  have hframe : pairInLoopLoops.1.exiting = some 3 ∧ pairInLoopLoops.2.preheader = some 4 ∧ pairInLoopLoops.2.header = 5 := by
    decide +kernel
  have hmem : pairInLoopLoops.1 ∈ pairInLoop.loops ∧ pairInLoopLoops.2 ∈ pairInLoop.loops := by decide +kernel
  obtain ⟨last, between, hlast, -, hbetween, hinto, -, -, hpaths⟩ := lockstep pairInLoop hmem.1 hmem.2 (by decide +kernel)
    (by decide +kernel) (by decide +kernel) (by decide +kernel) (by decide +kernel) (by decide +kernel)
  obtain rfl : 3 = last := Option.some.inj (hframe.1.symm.trans hlast)
  obtain rfl : 4 = between := Option.some.inj (hframe.2.1.symm.trans hbetween)
  refine ⟨hinto, fun u a b w c h => ?_⟩
  obtain ⟨henter, hleave⟩ := hpaths u a b w c h
  rw [hblocks.2, hframe.2.2] at henter
  rw [hblocks.1, hframe.2.2] at hleave
  simp only [List.mem_singleton] at henter hleave
  exact ⟨fun ha hb => ⟨(henter ha hb).1, (henter ha hb).2.1⟩, fun ha hb => (hleave ha hb).2⟩

end SsaFusion
