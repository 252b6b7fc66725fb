import SsaFusion.Proofs.Flow.Graph

/-!
# The order of dominance

`Doms next r a b` says that no path from the root `r` to `b` avoids `a`. On the nodes that the root reaches this is an
order (`Doms.trans`, `Doms.antisymm`) with the root as its least node, and the dominators of a node form a chain
(`Doms.total`). For a function, whose root is the entry, dominance is stated by paths as lists of blocks
(`Func.Dominates`).
-/

namespace SsaFusion

/-! ## Dominance in a graph with a root -/

section Order

variable {ν : Type} {next : ν → List ν} {ok : ν → Prop} {r a b c : ν}

/-- No path from the root to the second node avoids the first. -/
def Doms (next : ν → List ν) (r a b : ν) : Prop := ¬Reaches next (· ≠ a) r b

/-- A path to a node avoids another node or passes through it. -/
theorem Reaches.avoids_or_passes (h : Reaches next ok r c) (b : ν) :
    Reaches next (fun x => ok x ∧ x ≠ b) r c ∨ Reaches next ok r b ∧ Reaches next ok b c := by
  induction h with
  | refl hr =>
    by_cases e : r = b
    · subst e; exact Or.inr ⟨.refl hr, .refl hr⟩
    · exact Or.inl (.refl ⟨hr, e⟩)
  | @tail x y h hy hok ih =>
    by_cases e : y = b
    · subst e; exact Or.inr ⟨.tail h hy hok, .refl hok⟩
    · rcases ih with h | ⟨h₁, h₂⟩
      · exact Or.inl (.tail h hy ⟨hok, e⟩)
      · exact Or.inr ⟨h₁, .tail h₂ hy hok⟩

namespace Doms

theorem refl (a : ν) : Doms next r a a := fun h => h.ok_end rfl

theorem root (b : ν) : Doms next r r b := fun h => h.ok_start rfl

/-- Only the root dominates the root. -/
theorem eq_root (h : Doms next r a r) : a = r := by
  by_contra hne
  exact h (.refl fun e => hne e.symm)

/-- A dominator of a node that the root reaches is reached too. -/
theorem reached (h : Doms next r a b) (hb : Reaches next ok r b) : Reaches next ok r a := by
  rcases hb.avoids_or_passes a with h' | ⟨h', _⟩
  · exact absurd (h'.mono fun _ => And.right) h
  · exact h'

theorem trans (h : Doms next r a b) (h' : Doms next r b c) : Doms next r a c := by
  intro hc
  rcases hc.avoids_or_passes b with hc | ⟨hb, _⟩
  · exact h' (hc.mono fun _ => And.right)
  · exact h hb

/-- A strict dominator of a node dominates the nodes that go to it. -/
theorem of_step (h : Doms next r a c) (hne : a ≠ c) (hs : c ∈ next b) : Doms next r a b :=
  fun hb => h (.tail hb hs fun e => hne e.symm)

theorem antisymm (h : Doms next r a b) (h' : Doms next r b a) (ha : Reaches next (fun _ => True) r a) : a = b := by
  by_contra hne
  -- no path ever gets to either, since each would need the other first
  have hboth : ∀ {x}, Reaches next (fun _ => True) r x → Reaches next (fun x => x ≠ a ∧ x ≠ b) r x := by
    intro x hx
    induction hx with
    | refl _ =>
      refine .refl ⟨?_, ?_⟩
      · rintro rfl; exact hne h'.eq_root.symm
      · rintro rfl; exact hne h.eq_root
    | tail _ hy _ ih =>
      refine .tail ih hy ⟨?_, ?_⟩
      · rintro rfl; exact h'.of_step (fun e => hne e.symm) hy (ih.mono fun _ => And.right)
      · rintro rfl; exact h.of_step hne hy (ih.mono fun _ => And.left)
  exact (hboth ha).ok_end.1 rfl

/-- Two dominators of one node are comparable: if each could be reached without the other, then every node could be
reached without one of them. -/
theorem total (ha : Doms next r a c) (hb : Doms next r b c) (hc : Reaches next (fun _ => True) r c) :
    Doms next r a b ∨ Doms next r b a := by
  by_contra hno
  rw [not_or] at hno
  have hab : Reaches next (· ≠ a) r b := not_not.mp hno.1
  have hba : Reaches next (· ≠ b) r a := not_not.mp hno.2
  have hone : ∀ {x}, Reaches next (fun _ => True) r x → Reaches next (· ≠ a) r x ∨ Reaches next (· ≠ b) r x := by
    intro x hx
    induction hx with
    | refl _ =>
      by_cases e : r = a
      · exact Or.inr (e ▸ hba)
      · exact Or.inl (.refl e)
    | @tail x y _ hy _ ih =>
      by_cases ea : y = a
      · exact Or.inr (ea ▸ hba)
      · by_cases eb : y = b
        · exact Or.inl (eb ▸ hab)
        · exact ih.imp (fun h => h.tail hy ea) (fun h => h.tail hy eb)
  exact (hone hc).elim ha hb

end Doms

end Order

/-! ## Dominance of a function -/

namespace Func

variable {f : Func} {a b c d : BlockId}

/-- Every path from the entry to the second block contains the first. -/
def Dominates (f : Func) (a b : BlockId) : Prop := ∀ p, Path f.successors f.entry p b → a ∈ p

/-- Dominance of another block. -/
def StrictlyDominates (f : Func) (a b : BlockId) : Prop := a ≠ b ∧ f.Dominates a b

/-- A block is dominated if it cannot be reached around the other. -/
theorem dominates_iff_doms : f.Dominates a b ↔ Doms f.successors f.entry a b := by
  rw [Doms, reaches_iff_path]
  constructor
  · rintro h ⟨p, hp, hne⟩
    exact hne a (h p hp) rfl
  · intro h p hp
    by_contra ha
    exact h ⟨p, hp, fun x hx e => ha (e ▸ hx)⟩

namespace Dominates

theorem refl (a : BlockId) : f.Dominates a a := fun _ hp => hp.end_mem

theorem entry (b : BlockId) : f.Dominates f.entry b := fun _ hp => hp.start_mem

theorem trans (h : f.Dominates a b) (h' : f.Dominates b c) : f.Dominates a c := by
  rw [dominates_iff_doms] at *
  exact h.trans h'

theorem antisymm (h : f.Dominates a b) (h' : f.Dominates b a) (ha : f.Live a) : a = b := by
  rw [dominates_iff_doms] at *
  exact h.antisymm h' (live_iff_reaches.mp ha)

theorem total (h : f.Dominates a c) (h' : f.Dominates b c) (hc : f.Live c) : f.Dominates a b ∨ f.Dominates b a := by
  simp only [dominates_iff_doms] at *
  exact h.total h' (live_iff_reaches.mp hc)

theorem live (h : f.Dominates a b) (hb : f.Live b) : f.Live a := by
  rw [dominates_iff_doms] at h
  rw [live_iff_reaches] at *
  exact h.reached hb

/-- A strict dominator of a block dominates the blocks that go to it. -/
theorem of_step (h : f.Dominates a c) (hne : a ≠ c) (hs : c ∈ f.successors b) : f.Dominates a b := by
  intro p hp
  rcases List.mem_append.mp (h _ (hp.snoc hs)) with h | h
  · exact h
  · exact absurd (List.mem_singleton.mp h) hne

end Dominates

/-- Only the entry dominates the entry. -/
theorem eq_entry_of_dominates (h : f.Dominates a f.entry) : a = f.entry :=
  List.mem_singleton.mp (h _ (.single _))

/-- A block other than the entry is dominated by what dominates all ways into it, those it dominates itself aside. -/
theorem dominates_of_into (hne : b ≠ f.entry)
    (h : ∀ q, f.Live q → b ∈ f.successors q → f.Dominates a q ∨ f.Dominates b q) : f.Dominates a b := by
  have avoid : ∀ {x}, Reaches f.successors (· ≠ a) f.entry x →
      Reaches f.successors (fun y => y ≠ a ∧ y ≠ b) f.entry x := by
    intro x hx
    induction hx with
    | refl ha => exact .refl ⟨ha, hne.symm⟩
    | @tail q x hq hs hx ih =>
      refine .tail ih hs ⟨hx, ?_⟩
      rintro rfl
      have hlive : f.Live q := live_iff_reaches.mpr (hq.mono fun _ _ => trivial)
      rcases h q hlive hs with hd | hd
      · exact dominates_iff_doms.mp hd hq
      · exact dominates_iff_doms.mp hd (ih.mono fun _ => And.right)
  rw [dominates_iff_doms]
  exact fun hb => (avoid hb).ok_end.2 rfl

/-- A block outside a region is dominated by the only way out of the region if the entry lies inside. -/
theorem dominates_of_leave {R : BlockId → Prop} (hentry : R f.entry)
    (hleave : ∀ x, f.Live x → R x → ∀ y ∈ f.successors x, R y ∨ y = a) (hb : ¬R b) :
    f.Dominates a b := by
  rw [dominates_iff_doms]
  intro h
  have inside : ∀ {x}, Reaches f.successors (· ≠ a) f.entry x → R x := by
    intro x hx
    induction hx with
    | refl _ => exact hentry
    | tail hq hs hx ih =>
      have hlive := live_iff_reaches.mpr (hq.mono fun _ _ => trivial)
      exact (hleave _ hlive ih _ hs).resolve_right hx
  exact hb (inside h)

end Func

end SsaFusion
