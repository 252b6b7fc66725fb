import SsaFusion.Proofs.Fusion.Effects

/-!
# The two parts of a pair of loops

Control runs through a pair of loops in one pass: through the front, which holds the first loop and what belongs to it, and then
through the back, which holds the second loop. The front is entered at the top (`into_front`) and left for the turn
(`front_step`), the back is entered at the turn (`into_back`) and left for the block after the pair (`back_step`). Fusion runs
the two parts side by side, so it matters what one of them can see of the other: nothing that the back defines is available in
the front (`not_own_of_available`), and what is available in the back without being defined there was available at the turn
(`dominates_turn`).
-/

namespace SsaFusion

open Plan (phiDests bodyDests)

namespace Plan

variable (p : Plan) (f : Func)

/-- The blocks of the first loop with its preheader, and around guarded loops its guard and its exit. -/
def Front (l₁ : Loop) (b : BlockId) : Prop :=
  b ∈ l₁.blocks ∨ b = p.first.preheader ∨ ∃ g, p.guards = some g ∧ (b = g.first ∨ b = p.first.exit)

/-- The blocks of the second loop with its preheader, and around guarded loops its guard and its exit. -/
def Back (l₂ : Loop) (b : BlockId) : Prop :=
  b ∈ l₂.blocks ∨ b = p.second.preheader ∨ ∃ g, p.guards = some g ∧ (b = g.second ∨ b = p.second.exit)

/-- The block at which control turns from the front to the back. -/
def turn : BlockId := p.guards.elim p.second.preheader GuardShape.second

/-- The block behind the pair. -/
def after : BlockId := p.guards.elim p.second.exit GuardShape.join

/-- The values of the second guard that fusion moves to the join. -/
def GuardPhi (v : ValueId) : Prop := ∃ g, p.guards = some g ∧ v ∈ phiDests f g.second

/-- The values that the back computes, other than phis of the second guard. -/
def Own (l₂ : Loop) (v : ValueId) : Prop := (∃ b, p.Back l₂ b ∧ v ∈ f.destsAt b) ∧ ¬p.GuardPhi f v

section Frame

variable {p} {g : GuardShape}

theorem top_unguarded (hg : p.guards = none) : p.top = p.first.preheader := by
  simp only [top, hg, Option.elim_none]

theorem top_guarded (hg : p.guards = some g) : p.top = g.first := by
  simp only [top, hg, Option.elim_some]

theorem turn_unguarded (hg : p.guards = none) : p.turn = p.second.preheader := by
  simp only [turn, hg, Option.elim_none]

theorem turn_guarded (hg : p.guards = some g) : p.turn = g.second := by
  simp only [turn, hg, Option.elim_some]

theorem after_unguarded (hg : p.guards = none) : p.after = p.second.exit := by
  simp only [after, hg, Option.elim_none]

theorem after_guarded (hg : p.guards = some g) : p.after = g.join := by
  simp only [after, hg, Option.elim_some]

end Frame

end Plan

namespace Layout

variable {f : Func} {l₁ l₂ : Loop} {p : Plan} {a b d x : BlockId} {v : ValueId} (L : Layout f l₁ l₂ p)

include L

/-! ## Flow -/

omit L in
theorem top_front : p.Front l₁ p.top := by
  unfold Plan.top
  cases hg : p.guards with
  | none => exact Or.inr (Or.inl rfl)
  | some g => exact Or.inr (Or.inr ⟨g, hg, Or.inl rfl⟩)

theorem top_out₁ : p.top ∉ l₁.blocks := by
  unfold Plan.top
  cases hg : p.guards with
  | none => exact L.preheader₁_out.1
  | some g => exact L.guard₁_out₁ hg

omit L in
theorem turn_back : p.Back l₂ p.turn := by
  unfold Plan.turn
  cases hg : p.guards with
  | none => exact Or.inr (Or.inl rfl)
  | some g => exact Or.inr (Or.inr ⟨g, hg, Or.inl rfl⟩)

theorem exit₁_cases : p.first.exit = p.turn ∧ p.guards = none ∨ ∃ g, p.guards = some g := by
  cases hg : p.guards with
  | none =>
    exact Or.inl ⟨(L.unguarded hg).1.trans (Plan.turn_unguarded hg).symm, rfl⟩
  | some g => exact Or.inr ⟨g, rfl⟩

omit L in
theorem exit₂_cases : p.second.exit = p.after ∧ p.guards = none ∨ ∃ g, p.guards = some g := by
  cases hg : p.guards with
  | none => exact Or.inl ⟨(Plan.after_unguarded hg).symm, rfl⟩
  | some g => exact Or.inr ⟨g, rfl⟩

theorem not_back_of_front (hb : p.Front l₁ b) : ¬p.Back l₂ b := by
  rcases hb with h | rfl | ⟨g, hg, h⟩
  · rintro (h' | rfl | ⟨g, hg, rfl | rfl⟩)
    · exact L.disjoint h h'
    · exact L.preheader₂_out.1 h
    · exact L.guard₂_out₁ hg h
    · exact L.exit₂_out.1 h
  · rintro (h' | h | ⟨g, hg, h⟩)
    · exact L.preheader₁_out.2 h'
    · exact L.preheader_ne h
    · have hn := L.nodup_frame hg
      simp only [List.nodup_cons, List.mem_cons, not_or] at hn
      rcases h with h | h
      · exact hn.2.1.2.1 h
      · exact hn.2.1.2.2.2.1 h
  · have hn := L.nodup_frame hg
    simp only [List.nodup_cons, List.mem_cons, not_or] at hn
    rintro (h' | h' | ⟨g', hg', h'⟩)
    · rcases h with rfl | rfl
      · exact L.guard₁_out₂ hg h'
      · exact L.exit₁_out.2 h'
    · rcases h with rfl | rfl
      · exact hn.1.2.2.2.1 h'
      · exact hn.2.2.1.2.1 h'
    · cases hg.symm.trans hg'
      rcases h with rfl | rfl <;> rcases h' with h' | h'
      · exact hn.1.2.2.1 h'
      · exact hn.1.2.2.2.2.1 h'
      · exact hn.2.2.1.1 h'
      · exact hn.2.2.1.2.2.1 h'

theorem after_not_back : ¬p.Back l₂ p.after := by
  unfold Plan.after
  cases hg : p.guards with
  | none =>
    rintro (h | h | ⟨g, hg', -⟩)
    · exact L.exit₂_out.2 h
    · refine L.exit₂_not_late (L.late_iff.mpr (Or.inr (Or.inl h)))
    · cases hg.symm.trans hg'
  | some g =>
    have hn := L.join_not_mem hg
    simp only [List.mem_cons, not_or] at hn
    rintro (h | h | ⟨g', hg', h⟩)
    · exact L.join_out₂ hg h
    · exact hn.2.2.2.1 h
    · cases hg.symm.trans hg'
      rcases h with h | h
      · exact hn.2.2.1 h
      · exact hn.2.2.2.2.1 h

/-- The front is left for the turn. -/
theorem front_step (ha : p.Front l₁ a) (hstep : b ∈ f.successors a) : p.Front l₁ b ∨ b = p.turn := by
  rcases ha with h | rfl | ⟨g, hg, rfl | rfl⟩
  · by_cases hb : b ∈ l₁.blocks
    · exact Or.inl (Or.inl hb)
    · obtain ⟨-, rfl⟩ := L.shape₁.leave L.loop₁ h hstep hb
      rcases L.exit₁_cases with ⟨e, -⟩ | ⟨g, hg⟩
      · exact Or.inr e
      · exact Or.inl (Or.inr (Or.inr ⟨g, hg, Or.inr rfl⟩))
  · exact Or.inl (Or.inl (L.mem_successors_preheader₁.mp hstep ▸ L.header₁_mem))
  · rcases (L.mem_successors_guard₁ hg).mp hstep with rfl | rfl
    · exact Or.inl (Or.inr (Or.inl rfl))
    · exact Or.inr (Plan.turn_guarded hg).symm
  · exact Or.inr (((L.mem_successors_exit₁ hg).mp hstep).trans (Plan.turn_guarded hg).symm)

/-- The back is left for the block behind the pair. -/
theorem back_step (ha : p.Back l₂ a) (hstep : b ∈ f.successors a) : p.Back l₂ b ∨ b = p.after := by
  rcases ha with h | rfl | ⟨g, hg, rfl | rfl⟩
  · by_cases hb : b ∈ l₂.blocks
    · exact Or.inl (Or.inl hb)
    · obtain ⟨-, rfl⟩ := L.shape₂.leave L.loop₂ h hstep hb
      rcases exit₂_cases with ⟨e, -⟩ | ⟨g, hg⟩
      · exact Or.inr e
      · exact Or.inl (Or.inr (Or.inr ⟨g, hg, Or.inr rfl⟩))
  · exact Or.inl (Or.inl (L.mem_successors_preheader₂.mp hstep ▸ L.header₂_mem))
  · rcases (L.mem_successors_guard₂ hg).mp hstep with rfl | rfl
    · exact Or.inl (Or.inr (Or.inl rfl))
    · exact Or.inr (Plan.after_guarded hg).symm
  · exact Or.inr (((L.mem_successors_exit₂ hg).mp hstep).trans (Plan.after_guarded hg).symm)

/-- The front is entered at the top. -/
theorem into_front (hb : p.Front l₁ b) (hne : b ≠ p.top) (ha : f.Live a) (hstep : b ∈ f.successors a) : p.Front l₁ a := by
  rcases hb with h | rfl | ⟨g, hg, rfl | rfl⟩
  · by_cases hh : b = p.first.header
    · subst hh
      rcases L.shape₁.into_header L.loop₁ ha hstep with rfl | rfl
      · exact Or.inr (Or.inl rfl)
      · exact Or.inl L.latch₁_mem
    · exact Or.inl (L.shape₁.into L.loop₁ h hh ha hstep)
  · cases hg : p.guards with
    | none => exact absurd (Plan.top_unguarded hg).symm hne
    | some g => exact Or.inr (Or.inr ⟨g, hg, Or.inl ((L.guard₁_spec hg).1 a ha hstep)⟩)
  · exact absurd (Plan.top_guarded hg).symm hne
  · exact Or.inl (((L.guards hg).into₁ a).mp hstep ▸ L.latch₁_mem)

/-- The back is entered at the turn. -/
theorem into_back (hb : p.Back l₂ b) (hne : b ≠ p.turn) (ha : f.Live a) (hstep : b ∈ f.successors a) : p.Back l₂ a := by
  rcases hb with h | rfl | ⟨g, hg, rfl | rfl⟩
  · by_cases hh : b = p.second.header
    · subst hh
      rcases L.shape₂.into_header L.loop₂ ha hstep with rfl | rfl
      · exact Or.inr (Or.inl rfl)
      · exact Or.inl L.latch₂_mem
    · exact Or.inl (L.shape₂.into L.loop₂ h hh ha hstep)
  · cases hg : p.guards with
    | none => exact absurd (Plan.turn_unguarded hg).symm hne
    | some g => exact Or.inr (Or.inr ⟨g, hg, Or.inl ((L.guard₂_spec hg).1 a ha hstep)⟩)
  · exact absurd (Plan.turn_guarded hg).symm hne
  · exact Or.inl (((L.guards hg).into₂ a).mp hstep ▸ L.latch₂_mem)

/-- Control comes to the turn from the front. -/
theorem into_turn (ha : f.Live a) (hstep : p.turn ∈ f.successors a) : p.Front l₁ a := by
  unfold Plan.turn at hstep
  cases hg : p.guards with
  | none =>
    rw [hg] at hstep
    exact Or.inl (L.into_preheader₂ hg ha hstep ▸ L.latch₁_mem)
  | some g =>
    rw [hg] at hstep
    rcases ((L.guards hg).into a).mp hstep with rfl | rfl
    · exact Or.inr (Or.inr ⟨g, hg, Or.inr rfl⟩)
    · exact Or.inr (Or.inr ⟨g, hg, Or.inl rfl⟩)

/-- No block of the pair returns. -/
theorem exists_successor (hb : p.Front l₁ b ∨ p.Back l₂ b) : ∃ c, c ∈ f.successors b := by
  have loop : ∀ {l : Loop} {sh : LoopShape}, ShapeOf f l sh → IsLoop f l → b ∈ l.blocks → ∃ c, c ∈ f.successors b := by
    intro l sh hs hl hmem
    obtain ⟨t, ht, hreach⟩ := hl.reaches_tail hmem
    rcases hreach.cases_head with rfl | ⟨c, hc, -⟩
    · exact ⟨_, ((hl.tails b).mp ht).1⟩
    · exact ⟨c, hc⟩
  rcases hb with (h | rfl | ⟨g, hg, rfl | rfl⟩) | (h | rfl | ⟨g, hg, rfl | rfl⟩)
  · exact loop L.shape₁ L.loop₁ h
  · exact ⟨_, L.mem_successors_preheader₁.mpr rfl⟩
  · exact ⟨_, (L.mem_successors_guard₁ hg).mpr (Or.inl rfl)⟩
  · exact ⟨_, (L.mem_successors_exit₁ hg).mpr rfl⟩
  · exact loop L.shape₂ L.loop₂ h
  · exact ⟨_, L.mem_successors_preheader₂.mpr rfl⟩
  · exact ⟨_, (L.mem_successors_guard₂ hg).mpr (Or.inl rfl)⟩
  · exact ⟨_, (L.mem_successors_exit₂ hg).mpr rfl⟩

/-! ## Dominance -/

omit L in
theorem early_of_front (hb : p.Front l₁ b) : p.Early l₁ b ∨ ∃ g, p.guards = some g ∧ b = p.first.exit := by
  rcases hb with h | rfl | ⟨g, hg, rfl | rfl⟩
  · exact Or.inl (Or.inl h)
  · exact Or.inl (Or.inr (Or.inl rfl))
  · exact Or.inl (Or.inr (Or.inr ⟨g, hg, rfl⟩))
  · exact Or.inr ⟨g, hg, rfl⟩

theorem late_of_back (hb : p.Back l₂ b) : p.Late l₂ b ∨ ∃ g, p.guards = some g ∧ b = p.second.exit := by
  rw [L.late_iff]
  rcases hb with h | rfl | ⟨g, hg, rfl | rfl⟩
  · exact Or.inl (Or.inr (Or.inr (Or.inl h)))
  · exact Or.inl (Or.inr (Or.inl rfl))
  · exact Or.inl (Or.inr (Or.inr (Or.inr ⟨g, hg, rfl⟩)))
  · exact Or.inr ⟨g, hg, rfl⟩

theorem live_of_back (hb : p.Back l₂ b) : f.Live b := by
  rcases L.late_of_back hb with h | ⟨g, hg, rfl⟩
  · exact L.live_of_late h
  · exact L.shape₂.live_exit L.loop₂

theorem top_dominates_back (hb : p.Back l₂ b) : f.Dominates p.top b := by
  rcases L.late_of_back hb with h | ⟨g, hg, rfl⟩
  · exact L.top_dominates_late h
  · exact (L.top_dominates_late (L.late_iff.mpr (Or.inr (Or.inr (Or.inl L.latch₂_mem))))).trans (L.latch₂_dominates_exit₂ hg)

theorem top_dominates_front (hb : p.Front l₁ b) : f.Dominates p.top b := by
  rcases hb with h | rfl | ⟨g, hg, rfl | rfl⟩
  · exact L.top_dominates_first h
  · exact L.top_dominates_preheader₁
  · rw [Plan.top_guarded hg]
    exact .refl _
  · exact (L.top_dominates_first L.latch₁_mem).trans (L.latch₁_dominates_exit₁ hg)

/-- No block of the back dominates a block of the front. -/
theorem not_dominates_front (hd : p.Back l₂ d) (hb : p.Front l₁ b) : ¬f.Dominates d b := by
  have late : ∀ {d}, p.Late l₂ d → p.Back l₂ d → ¬f.Dominates d b := by
    intro d hlate hd hdom
    rcases early_of_front hb with h | ⟨g, hg, rfl⟩
    · exact L.not_dominates_early hlate h hdom
    · have hne : d ≠ p.first.exit := by
        rintro rfl
        exact L.not_back_of_front hb hd
      exact L.not_dominates_early hlate (Or.inl L.latch₁_mem) (hdom.of_step hne (((L.guards hg).into₁ _).mpr rfl))
  rcases L.late_of_back hd with h | ⟨g, hg, rfl⟩
  · exact late h hd
  · intro hdom
    exact late (L.late_iff.mpr (Or.inr (Or.inr (Or.inl L.latch₂_mem)))) (Or.inl L.latch₂_mem)
      ((L.latch₂_dominates_exit₂ hg).trans hdom)

/-- Inside the back, the turn leads to every block. -/
theorem reaches_back (hx : p.Back l₂ x) : Reaches f.successors (p.Back l₂) p.turn x := by
  have hpre : Reaches f.successors (p.Back l₂) p.turn p.second.preheader := by
    unfold Plan.turn
    cases hg : p.guards with
    | none => exact .refl (Or.inr (Or.inl rfl))
    | some g =>
      exact .tail (.refl (Or.inr (Or.inr ⟨g, hg, Or.inl rfl⟩))) ((L.mem_successors_guard₂ hg).mpr (Or.inl rfl))
        (Or.inr (Or.inl rfl))
  have hhead := hpre.tail (L.mem_successors_preheader₂.mpr rfl) (Or.inl L.header₂_mem)
  have hloop : ∀ {x}, x ∈ l₂.blocks → Reaches f.successors (p.Back l₂) p.turn x := by
    intro x hx
    rw [L.shape₂.header] at hhead
    exact hhead.trans ((L.loop₂.reaches_from_header hx).mono fun _ => Or.inl)
  rcases hx with h | rfl | ⟨g, hg, rfl | rfl⟩
  · exact hloop h
  · exact hpre
  · rw [← Plan.turn_guarded hg]
    exact .refl turn_back
  · exact (hloop L.latch₂_mem).tail (((L.guards hg).into₂ _).mpr rfl) (Or.inr (Or.inr ⟨g, hg, Or.inr rfl⟩))

/-- What dominates a block of the back from outside dominates the turn. -/
theorem dominates_turn (hx : p.Back l₂ x) (hdom : f.Dominates d x) (hd : ¬p.Back l₂ d) : f.Dominates d p.turn := by
  rw [Func.dominates_iff_doms] at hdom ⊢
  intro h
  refine hdom (h.trans ((L.reaches_back hx).mono fun y hy e => hd (e ▸ hy)))

/-- What dominates a block of the back from outside is above the pair, or around unguarded loops may be in the first. -/
theorem dominates_back_cases (hx : p.Back l₂ x) (hdom : f.Dominates d x) (hd : ¬p.Back l₂ d) :
    f.Dominates d p.top ∨ p.guards = none ∧ d ∈ l₁.blocks ∧ f.Dominates d p.first.latch := by
  have hturn := L.dominates_turn hx hdom hd
  have hne : d ≠ p.turn := fun e => hd (e ▸ turn_back)
  unfold Plan.turn at hturn hne
  cases hg : p.guards with
  | some g =>
    rw [hg] at hturn hne
    refine Or.inl ?_
    rw [Plan.top_guarded hg]
    exact hturn.of_step hne ((L.mem_successors_guard₁ hg).mpr (Or.inr rfl))
  | none =>
    rw [hg] at hturn hne
    have hlatch : f.Dominates d p.first.latch := by
      refine hturn.of_step hne ?_
      show p.second.preheader ∈ _
      rw [← (L.unguarded hg).1]
      exact L.shape₁.mem_successors_latch.mpr (Or.inr rfl)
    by_cases hmem : d ∈ l₁.blocks
    · exact Or.inr ⟨rfl, hmem, hlatch⟩
    · -- a way to the preheader that avoids the block goes on through the loop
      refine Or.inl ?_
      rw [Plan.top_unguarded hg]
      rw [Func.dominates_iff_doms] at hlatch ⊢
      intro h
      have hhead := h.tail (L.mem_successors_preheader₁.mpr rfl) fun e => hmem (e ▸ L.header₁_mem)
      rw [L.shape₁.header] at hhead
      exact hlatch (hhead.trans ((L.loop₁.reaches_from_header L.latch₁_mem).mono fun y hy e => hmem (e ▸ hy)))

/-! ## Values -/

/-- Nothing that the back computes is available in the front. -/
theorem not_own_of_available (hv : f.Valid) (hb : p.Front l₁ b) (h : f.AvailableOut b v) :
    ¬(∃ c, p.Back l₂ c ∧ v ∈ f.destsAt c) ∧ p.unifies v = false := by
  have hback : ¬∃ c, p.Back l₂ c ∧ v ∈ f.destsAt c := by
    rintro ⟨c, hc, hvc⟩
    rcases h with hparam | ⟨d, hdom, hvd⟩
    · exact Func.not_mem_params hv.once hvc hparam
    · obtain rfl := Func.destsAt_unique hv.once hvd hvc
      exact L.not_dominates_front hc hb hdom
  refine ⟨hback, ?_⟩
  by_contra hu
  rw [Bool.not_eq_false] at hu
  obtain ⟨-, rfl⟩ := p.eq_of_unifies hu
  exact hback ⟨p.second.header, Or.inl L.header₂_mem, mem_destsAt.mpr (Or.inl L.induction₂_mem)⟩

/-! ## Phis of the second guard -/

section Guarded

variable {g : GuardShape} (hg : p.guards = some g)

/-- Control comes to the join from the pair only. -/
def JoinClosed (f : Func) (p : Plan) (g : GuardShape) : Prop :=
  g.join ≠ f.entry ∧ ∀ q, f.Live q → g.join ∈ f.successors q → q = g.second ∨ q = p.second.exit

variable (hclosed : JoinClosed f p g)

include hg hclosed

/-- Such a join lies behind the pair. -/
theorem join_not_dominates_back (hx : p.Back l₂ x) : ¬f.Dominates g.join x := by
  intro hdom
  have htop : f.Dominates g.join p.top := by
    rcases L.dominates_back_cases hx hdom (Plan.after_guarded hg ▸ L.after_not_back) with h | ⟨h, -⟩
    · exact h
    · cases hg.symm.trans h
  have hlive : f.Live g.join := (L.live_guard₂ hg).step ((L.mem_successors_guard₂ hg).mpr (Or.inr rfl))
  obtain ⟨q, hq, hstep⟩ := (Func.live_iff_reaches.mp hlive).arrives (Ne.symm hclosed.1)
  have hqlive : f.Live q := Func.live_iff_reaches.mpr (hq.mono fun _ _ => trivial)
  have hback : p.Back l₂ q := by
    rcases hclosed.2 q hqlive hstep with rfl | rfl
    · exact Or.inr (Or.inr ⟨g, hg, Or.inl rfl⟩)
    · exact Or.inr (Or.inr ⟨g, hg, Or.inr rfl⟩)
  exact Func.dominates_iff_doms.mp (htop.trans (L.top_dominates_back hback)) (hq.mono fun _ h => h.2)

variable (hphi : v ∈ phiDests f g.second) (hx : p.Back l₂ x)

include hphi hx

theorem guardPhi_not_read {i : Instr} (hi : i ∈ f.bodyAt x) (hnot : i.isPhi = false) : v ∉ i.reads := fun hr =>
  L.join_not_dominates_back hg hclosed hx (L.join_dominates_of_read hg hphi (L.live_of_back hx) hi hnot hr)

theorem guardPhi_not_decides {t : Terminator} (ht : f.term? x = some t) : v ∉ valuesOf t.operands := fun hr =>
  L.join_not_dominates_back hg hclosed hx ((L.guardPhi_spec hg hphi (L.live_of_back hx)).2 t ht hr)

theorem guardPhi_not_source {i : Instr} (hi : i ∈ f.phisAt x) {sources : List (BlockId × Operand)}
    (hs : i.sources? = some sources) {s : BlockId × Operand} (hsm : s ∈ sources) : s.2 ≠ .var v := by
  intro hvar
  have h := L.join_dominates_of_phi hg hphi (L.live_of_back hx) hi hs hsm hvar
  split at h
  · rename_i hjoin
    exact L.after_not_back (Plan.after_guarded hg ▸ hjoin ▸ hx)
  · exact L.join_not_dominates_back hg hclosed hx h.2

end Guarded

/-! ## Ways through the fused function -/

/-- Ways that avoid the top lead past the pair. -/
theorem outside_of_reaches (h : Reaches f.successors (· ≠ p.top) f.entry b) : ¬p.Front l₁ b ∧ ¬p.Back l₂ b :=
  ⟨fun hb => Func.dominates_iff_doms.mp (L.top_dominates_front hb) h,
    fun hb => Func.dominates_iff_doms.mp (L.top_dominates_back hb) h⟩

theorem not_late_of_outside (hf : ¬p.Front l₁ b) (hb : ¬p.Back l₂ b) : ¬p.Late l₂ b := by
  rw [L.late_iff]
  rintro (rfl | rfl | h | ⟨g, hg, rfl⟩)
  · rcases L.exit₁_cases with ⟨e, -⟩ | ⟨g, hg⟩
    · exact hb (e ▸ turn_back)
    · exact hf (Or.inr (Or.inr ⟨g, hg, Or.inr rfl⟩))
  · exact hb (Or.inr (Or.inl rfl))
  · exact hb (Or.inl h)
  · exact hb (Or.inr (Or.inr ⟨g, hg, Or.inl rfl⟩))

/-- The fused function leads to the first preheader past the first loop. -/
theorem splice_reaches_preheader₁ : Reaches (p.splice f).successors (· ∉ l₁.blocks) f.entry p.first.preheader := by
  have outside : ∀ {y}, Reaches f.successors (· ≠ p.top) f.entry y →
      Reaches (p.splice f).successors (· ∉ l₁.blocks) f.entry y := by
    intro y hy
    induction hy with
    | refl h => exact .refl fun hmem => (L.outside_of_reaches (.refl h)).1 (Or.inl hmem)
    | @tail x y hx hstep h ih =>
      obtain ⟨hf, hb⟩ := L.outside_of_reaches (hx.tail hstep h)
      have hmem : y ∉ l₁.blocks := fun hmem => hf (Or.inl hmem)
      refine ih.tail (L.mem_successors_splice.mpr (Or.inl ⟨hstep, ?_⟩)) hmem
      exact L.uncut (L.not_late_of_outside hf hb) fun e => absurd (e ▸ L.latch₁_mem) hmem
  have htop : Reaches (p.splice f).successors (· ∉ l₁.blocks) f.entry p.top := by
    by_cases he : f.entry = p.top
    · rw [he]
      exact .refl L.top_out₁
    · obtain ⟨c, hc, hstep⟩ := (Func.live_iff_reaches.mp L.live_top).arrives he
      refine (outside (hc.mono fun _ h => h.2)).tail (L.mem_successors_splice.mpr (Or.inl ⟨hstep, ?_⟩)) L.top_out₁
      exact L.uncut (L.not_late_of_early early_top) fun e => absurd (e ▸ L.latch₁_mem) L.top_out₁
  unfold Plan.top at htop
  cases hg : p.guards with
  | none => rwa [hg] at htop
  | some g =>
    rw [hg] at htop
    refine htop.tail (L.mem_successors_splice.mpr (Or.inl ⟨(L.mem_successors_guard₁ hg).mpr (Or.inl rfl), ?_⟩))
      L.preheader₁_out.1
    exact L.uncut L.preheader₁_not_late fun e => absurd (e ▸ L.latch₁_mem) L.preheader₁_out.1

theorem splice_reaches_header₁ :
    Reaches (p.splice f).successors (fun x => x ∈ l₁.blocks → x = p.first.header) f.entry p.first.header := by
  refine (L.splice_reaches_preheader₁.mono fun x hx hmem => absurd hmem hx).tail
    (L.mem_successors_splice.mpr (Or.inl ⟨L.mem_successors_preheader₁.mpr rfl, L.header₁_uncut⟩)) fun _ => rfl

/-- In the fused function, nothing of the first loop dominates what is in front of it. -/
theorem not_dominates_preheader₁ (hd : d ∈ l₁.blocks) : ¬(p.splice f).Dominates d p.first.preheader := by
  rw [Func.dominates_iff_doms, Doms, not_not, entry_splice]
  exact L.splice_reaches_preheader₁.mono fun x hx e => hx (e ▸ hd)

theorem eq_header₁_of_dominates (hd : d ∈ l₁.blocks) (h : (p.splice f).Dominates d p.first.header) : d = p.first.header := by
  by_contra hne
  rw [Func.dominates_iff_doms, entry_splice] at h
  exact h (L.splice_reaches_header₁.mono fun x hx e => hne (e ▸ hx (e ▸ hd)))

/-- In the fused function, the second body runs before the first latch. -/
theorem latch₁_not_dominates_inner (hb : p.Inner l₂ b) : ¬(p.splice f).Dominates p.first.latch b := by
  obtain ⟨first, last, hbody⟩ := L.body_of_inner hb
  have hne := (L.latch_ne_header hbody).1
  rw [Func.dominates_iff_doms, Doms, not_not, entry_splice]
  have hhead : Reaches (p.splice f).successors (· ≠ p.first.latch) f.entry p.first.header :=
    L.splice_reaches_header₁.mono fun x hx e => hne (e ▸ hx (e ▸ L.latch₁_mem))
  have hlast : Reaches (p.splice f).successors (· ≠ p.first.latch) f.entry p.first.last := by
    have hloop := L.loop₁.reaches_from_header L.latch₁_mem
    rw [← L.shape₁.header] at hloop
    obtain ⟨c, hc, hstep⟩ := hloop.arrives (Ne.symm hne)
    have hlive := L.loop₁.live_of_mem hc.ok_end.1
    rw [← (L.shape₁.into_latch L.loop₁ hne hlive).mp hstep]
    clear hstep hlive
    induction hc with
    | refl => exact hhead
    | @tail x y _ hxy hy ih =>
      refine ih.tail (L.mem_successors_splice.mpr (Or.inl ⟨hxy, ?_⟩)) hy.2
      exact L.uncut (L.not_late_of_mem hy.1) fun e => absurd e hy.2
  have hin : ∀ {y}, p.Inner l₂ y → y ≠ p.first.latch := fun hy e => L.disjoint L.latch₁_mem (e ▸ hy.1)
  have hfirst := hlast.tail (L.mem_successors_splice.mpr (Or.inr (Or.inr (Or.inr ⟨first, last, hbody, Or.inl ⟨rfl, rfl⟩⟩))))
    (hin (L.inner_first hbody))
  have hreach := L.inner_reaches hbody hb
  clear hb
  induction hreach with
  | refl => exact hfirst
  | @tail x y _ hxy hy ih =>
    refine ih.tail (L.mem_successors_splice.mpr (Or.inl ⟨hxy, ?_⟩)) (hin hy)
    rintro (⟨-, rfl⟩ | ⟨g, hg, -, rfl⟩ | ⟨_, _, _, ⟨-, rfl⟩ | ⟨-, rfl⟩⟩)
    · exact L.exit₁_out.2 hy.1
    · exact L.guard₂_out₂ hg hy.1
    · exact hin hy rfl
    · exact hy.2.2 rfl

/-! ## What is available in the fused function -/

section Available

variable (hv : f.Valid) (hd : d ∈ l₁.blocks) (hvd : v ∈ f.destsAt d)

include hv hd hvd

theorem standIn_first : Snapshot.standIn p v = v := by
  refine L.standIn_eq hv (Or.inl ⟨?_, hvd⟩)
  rintro rfl
  exact L.disjoint hd L.header₂_mem

/-- A value of the first loop is available in the fused function only behind its block. -/
theorem splice_dominates (hav : (p.splice f).AvailableOut x (Snapshot.standIn p v)) : (p.splice f).Dominates d x := by
  rw [L.standIn_first hv hd hvd] at hav
  rcases hav with hpar | ⟨d', hdom, hmem⟩
  · rw [Layout.params_splice] at hpar
    exact absurd hpar (Func.not_mem_params hv.once hvd)
  · have hu : p.unifies v = false := by
      by_contra hu
      have := (L.unifies_spec hv (by simpa using hu)).1 d hvd
      exact L.disjoint hd (this ▸ L.header₂_mem)
    have hd' := L.mem_destsAt_kept hv (L.kept_of_mem₁ hd) hu hvd
    exact L.destsAt_splice_unique hv hmem hd' ▸ hdom

/-- What moved code reads of the first loop is available where the code has gone. -/
theorem available_of_readsOk {as : List BlockId} {instr : Instr} (hreads : ReadsOk (p.Seen f x as) (p.bodyPart f a))
    (ha : a ∉ l₁.blocks) (hi : instr ∈ f.bodyAt a) (hr : v ∈ instr.reads) : (p.splice f).AvailableOut x (Snapshot.standIn p v) := by
  have hmem : p.renamed instr ∈ p.bodyPart f a := List.mem_map_of_mem hi
  have hread : Snapshot.standIn p v ∈ (p.renamed instr).reads := by
    rw [p.reads_renamed]
    exact List.mem_map_of_mem hr
  rcases hreads.known hmem (by rw [p.isPhi_renamed]; exact hv.phisFirst a instr hi) hread with
    (h | h | ⟨a', -, rfl, h⟩) | h
  · exact Func.availableOut_iff.mpr (Or.inl h)
  · exact Func.availableOut_iff.mpr (Or.inr (Layout.mem_destsAt.mpr (Or.inl h)))
  · refine Func.availableOut_iff.mpr (Or.inr ((L.mem_destsAt_splice hv).mpr ⟨a', Or.inr ⟨h, rfl⟩⟩))
  · rw [Plan.dests_bodyPart, L.standIn_first hv hd hvd] at h
    exact absurd (Func.destsAt_unique hv.once (Layout.mem_destsAt.mpr (Or.inr h)) hvd ▸ hd) ha

/-- What moves in front of the first loop reads nothing of it. -/
theorem preheader₂_not_reads {instr : Instr} (hi : instr ∈ f.bodyAt p.second.preheader) : v ∉ instr.reads := fun hr =>
  L.not_dominates_preheader₁ hd (L.splice_dominates hv hd hvd
    (L.available_of_readsOk hv hd hvd (L.relocated hv).preheader₂ L.preheader₂_out.1 hi hr))

end Available

end Layout

end SsaFusion
