import SsaFusion.Proofs.Fusion.Shape

/-!
# How a planned pair lies in its function

The blocks of a pair that is to be fused, with the only edges between them:

    guard₁ ---------> guard₂ ---------> join        (guarded pairs only)
      |          /      |          /
    preheader₁  /     preheader₂  /
      |        /        |        /
    loop₁ -> exit₁    loop₂ -> exit₂

Without guards, the exit of the first loop is the preheader of the second. `Layout` collects what makes a pair such a
pair; from it follow which blocks are different and which dominate which.
-/

namespace SsaFusion

/-! ## One loop -/

theorem mem_successors_of_term {f : Func} {b : BlockId} {t : Terminator} (h : f.term? b = some t) {c : BlockId} :
    c ∈ f.successors b ↔ c ∈ t.targets := by
  simp [Func.successors, h]

/-- The two ways of a block that has a second one. -/
theorem mem_successors_of_other {f : Func} {b q o : BlockId}
    (h : (f.term? b).bind (Terminator.other? q) = some o) {c : BlockId} : c ∈ f.successors b ↔ c = q ∨ c = o := by
  obtain ⟨t, ht, ho⟩ := Option.bind_eq_some_iff.mp h
  rw [mem_successors_of_term ht]
  unfold Terminator.other? at ho
  split at ho
  · rw [mem_targets_branch]
    split at ho
    · rename_i e
      cases ho
      rw [e]
    · split at ho
      · rename_i e
        cases ho
        rw [e]
        exact or_comm
      · cases ho
  · cases ho

namespace ShapeOf

variable {f : Func} {l l' : Loop} {sh sh' : LoopShape} {a b : BlockId} (hs : ShapeOf f l sh) (hl : IsLoop f l)

include hs hl

theorem header_mem : sh.header ∈ l.blocks := hs.header ▸ hl.header_mem

theorem latch_mem : sh.latch ∈ l.blocks := (hl.latch_spec hs.latch).1

omit hl in
theorem mem_successors_latch : b ∈ f.successors sh.latch ↔ b = sh.header ∨ b = sh.exit := by
  obtain ⟨c, t, e, hterm, h⟩ := hs.latchTerm
  rw [mem_successors_of_term hterm, mem_targets_branch]
  rcases h with ⟨rfl, rfl⟩ | ⟨rfl, rfl⟩
  · rfl
  · exact or_comm

theorem exit_not_mem : sh.exit ∉ l.blocks := (hl.exitEdge_spec hs.exitEdge).2.2.1

theorem leave (ha : a ∈ l.blocks) (hstep : b ∈ f.successors a) (hb : b ∉ l.blocks) : a = sh.latch ∧ b = sh.exit :=
  (hl.exitEdge_spec hs.exitEdge).2.2.2 a ha b hstep hb

theorem preheader_not_mem : sh.preheader ∉ l.blocks := (hl.preheader_spec hs.preheader).1

theorem live_preheader : f.Live sh.preheader := (hl.preheader_spec hs.preheader).2.1

theorem live_header : f.Live sh.header := hl.live_of_mem (hs.header_mem hl)

theorem live_latch : f.Live sh.latch := hl.live_of_mem (hs.latch_mem hl)

theorem mem_successors_preheader : b ∈ f.successors sh.preheader ↔ b = sh.header := by
  rw [(hl.preheader_spec hs.preheader).2.2.1, hs.header, List.mem_singleton]

/-- The live ways to the header. -/
theorem into_header (ha : f.Live a) (hstep : sh.header ∈ f.successors a) : a = sh.preheader ∨ a = sh.latch := by
  rw [hs.header] at hstep
  by_cases hmem : a ∈ l.blocks
  · exact Or.inr ((hl.latch_spec hs.latch).2.2 a hmem hstep)
  · exact Or.inl ((hl.preheader_spec hs.preheader).2.2.2 a ha hstep hmem)

theorem preheader_dominates_header : f.Dominates sh.preheader sh.header :=
  hs.header ▸ hl.preheader_dominates hs.preheader

theorem header_dominates (hb : b ∈ l.blocks) : f.Dominates sh.header b := hs.header ▸ hl.dominates_of_mem hb

theorem live_exit : f.Live sh.exit := (hs.live_latch hl).step (hs.mem_successors_latch.mpr (Or.inr rfl))

/-- Control gets to the rest of the loop inside it. -/
theorem into (hb : b ∈ l.blocks) (hne : b ≠ sh.header) (ha : f.Live a) (hstep : b ∈ f.successors a) : a ∈ l.blocks :=
  hl.mem_of_step hb (fun e => hne (e.trans hs.header.symm)) ha hstep

/-! ### The body -/

/-- The block in front of the latch, if the latch is not the header. -/
theorem into_latch (hne : sh.latch ≠ sh.header) (ha : f.Live a) : sh.latch ∈ f.successors a ↔ a = sh.last := by
  cases hbody : sh.body with
  | none =>
    have hterm := hs.straight hbody hne
    have hlast : sh.last = sh.header := by simp [LoopShape.last, hbody]
    rw [hlast]
    constructor
    · -- the header goes to the latch only, so nothing else is in the loop
      intro hstep
      have hmem := hs.into hl (hs.latch_mem hl) hne ha hstep
      by_contra hah
      have only : ∀ {x}, Reaches f.successors (· ∈ l.blocks) l.header x → x = sh.header ∨ x = sh.latch := by
        intro x hx
        induction hx with
        | refl _ => exact Or.inl hs.header.symm
        | @tail y x _ hy hx ih =>
          rcases ih with rfl | rfl
          · rw [mem_successors_of_term hterm] at hy
            exact Or.inr (List.mem_singleton.mp hy)
          · rcases hs.mem_successors_latch.mp hy with h | rfl
            · exact Or.inl h
            · exact absurd hx (hs.exit_not_mem hl)
      rcases only (hl.reaches_from_header hmem) with h | rfl
      · exact hah h
      · rcases hs.mem_successors_latch.mp hstep with h | h
        · exact hne h
        · exact hs.exit_not_mem hl (h ▸ hs.latch_mem hl)
    · rintro rfl
      rw [mem_successors_of_term hterm]
      exact List.mem_singleton_self _
  | some body =>
    obtain ⟨first, last⟩ := body
    obtain ⟨_, _, _, hpreds⟩ := hs.body first last hbody
    have hlast : sh.last = last := by simp [LoopShape.last, hbody]
    have hmem : ∀ x, x ∈ [last] ↔ sh.latch ∈ f.successors x ∧ x ∈ l.blocks := by
      intro x
      rw [← hpreds, List.mem_filter, Func.mem_predecessors]
      simp [Loop.contains]
    rw [hlast]
    constructor
    · exact fun hstep => List.mem_singleton.mp ((hmem a).mpr ⟨hstep, hs.into hl (hs.latch_mem hl) hne ha hstep⟩)
    · rintro rfl
      exact ((hmem a).mp (List.mem_singleton_self _)).1

/-- Every block but the header is entered from inside. -/
theorem exists_into (hb : b ∈ l.blocks) (hne : b ≠ sh.header) : ∃ a ∈ l.blocks, b ∈ f.successors a := by
  have hr := hl.reaches_from_header hb
  cases hr with
  | refl => exact absurd hs.header.symm hne
  | tail h hstep _ => exact ⟨_, h.ok_end, hstep⟩

/-- The block in front of the latch goes to the latch. -/
theorem last_spec (hne : sh.latch ≠ sh.header) :
    sh.last ∈ l.blocks ∧ sh.latch ∈ f.successors sh.last ∧ sh.last ≠ sh.latch := by
  obtain ⟨a, ha, hstep⟩ := hs.exists_into hl (hs.latch_mem hl) hne
  obtain rfl := (hs.into_latch hl hne (hl.live_of_mem ha)).mp hstep
  refine ⟨ha, hstep, fun e => ?_⟩
  rw [e] at hstep
  rcases hs.mem_successors_latch.mp hstep with h | h
  · exact hne h
  · exact hs.exit_not_mem hl (h ▸ hs.latch_mem hl)

/-! ### Two loops without common blocks -/

variable (hs' : ShapeOf f l' sh') (hl' : IsLoop f l') (hdisj : ∀ b ∈ l.blocks, b ∉ l'.blocks)

include hs' hl' hdisj

theorem header_ne : sh.header ≠ sh'.header :=
  fun e => hdisj _ (hs.header_mem hl) (e ▸ hs'.header_mem hl')

theorem preheader_ne : sh.preheader ≠ sh'.preheader := by
  intro e
  have h := (hs.mem_successors_preheader hl).mpr rfl
  rw [e] at h
  exact hs.header_ne hl hs' hl' hdisj ((hs'.mem_successors_preheader hl').mp h)

theorem exit_not_mem_other : sh.exit ∉ l'.blocks := by
  intro hmem
  have hstep : sh.exit ∈ f.successors sh.latch := hs.mem_successors_latch.mpr (Or.inr rfl)
  have hlatch := hdisj _ (hs.latch_mem hl)
  by_cases e : sh.exit = sh'.header
  · rw [e] at hstep
    rcases hs'.into_header hl' (hs.live_latch hl) hstep with h | h
    · -- a preheader has one way on, a latch two
      have hback : sh.header ∈ f.successors sh.latch := hs.mem_successors_latch.mpr (Or.inl rfl)
      rw [h] at hback
      exact hs.header_ne hl hs' hl' hdisj ((hs'.mem_successors_preheader hl').mp hback)
    · exact hlatch (h ▸ hs'.latch_mem hl')
  · exact hlatch (hs'.into hl' hmem e (hs.live_latch hl) hstep)

theorem preheader_not_mem_other : sh.preheader ∉ l'.blocks := by
  intro hmem
  have hstep : sh.header ∈ f.successors sh.preheader := (hs.mem_successors_preheader hl).mpr rfl
  obtain ⟨h, _⟩ := hs'.leave hl' hmem hstep (hdisj _ (hs.header_mem hl))
  have hback : sh'.header ∈ f.successors sh'.latch := hs'.mem_successors_latch.mpr (Or.inl rfl)
  rw [← h] at hback
  exact hs.header_ne hl hs' hl' hdisj ((hs.mem_successors_preheader hl).mp hback).symm

end ShapeOf

/-! ## The pair -/

/-- How the loops of a planned pair lie in the function. -/
structure Layout (f : Func) (l₁ l₂ : Loop) (p : Plan) : Prop where
  siblings : f.Siblings l₁ l₂
  gateway : f.Dominates l₁.gateway l₂.gateway
  plan : PlanOf (Snapshot.of f) l₁ l₂ p
  unguarded : p.guards = none → p.first.exit = p.second.preheader ∧ l₁.guard = none ∧ l₂.guard = none

/-- A legal pair of neighbours with a plan lies as drawn. -/
theorem layout_of_plan {f : Func} {l₁ l₂ : Loop} {pair : Nat} {p : Plan}
    (hpair : (l₁, l₂) ∈ (Snapshot.of f).candidates) (hlegal : ((Snapshot.of f).legality l₁ l₂ pair).Gives .legal)
    (hplan : ((Snapshot.of f).plan l₁ l₂ .legal).Gives p) : Layout f l₁ l₂ p := by
  have hsib := Func.siblings_of_candidate hpair
  have hspec := Snapshot.plan_spec hplan
  refine ⟨hsib, dominates_gateway_of_legal (isLoop_of_mem hsib.second) hlegal, hspec, fun hg => ?_⟩
  have hnone : l₁.guard = none := by
    have hparity := Snapshot.isGuarded_eq_of_legal hlegal
    rcases hspec.unguarded hg with h | h
    · exact h
    · simpa [Loop.isGuarded, h] using hparity
  obtain ⟨hnone₂, b, hx, hq⟩ := Snapshot.exit_eq_preheader_of_legal hlegal hnone
  refine ⟨?_, hnone, hnone₂⟩
  have hexit : l₁.exit = some p.first.exit := by simp [Loop.exit, hspec.first.exitEdge]
  have hpre := hspec.second.preheader
  rw [hexit] at hx
  rw [hpre] at hq
  exact (Option.some.inj hx).trans (Option.some.inj hq).symm

namespace Layout

variable {f : Func} {l₁ l₂ : Loop} {p : Plan} {a b : BlockId} (L : Layout f l₁ l₂ p)

include L

theorem loop₁ : IsLoop f l₁ := isLoop_of_mem L.siblings.first

theorem loop₂ : IsLoop f l₂ := isLoop_of_mem L.siblings.second

theorem shape₁ : ShapeOf f l₁ p.first := L.plan.first

theorem shape₂ : ShapeOf f l₂ p.second := L.plan.second

theorem disjoint (h : b ∈ l₁.blocks) : b ∉ l₂.blocks := fun h' => L.siblings.disjoint h h'

theorem disjoint' (h : b ∈ l₂.blocks) : b ∉ l₁.blocks := fun h' => L.siblings.disjoint h' h

theorem exit₁_out : p.first.exit ∉ l₁.blocks ∧ p.first.exit ∉ l₂.blocks :=
  ⟨L.shape₁.exit_not_mem L.loop₁, L.shape₁.exit_not_mem_other L.loop₁ L.shape₂ L.loop₂ fun _ => L.disjoint⟩

theorem exit₂_out : p.second.exit ∉ l₁.blocks ∧ p.second.exit ∉ l₂.blocks :=
  ⟨L.shape₂.exit_not_mem_other L.loop₂ L.shape₁ L.loop₁ fun _ => L.disjoint', L.shape₂.exit_not_mem L.loop₂⟩

theorem preheader₁_out : p.first.preheader ∉ l₁.blocks ∧ p.first.preheader ∉ l₂.blocks :=
  ⟨L.shape₁.preheader_not_mem L.loop₁,
    L.shape₁.preheader_not_mem_other L.loop₁ L.shape₂ L.loop₂ fun _ => L.disjoint⟩

theorem preheader₂_out : p.second.preheader ∉ l₁.blocks ∧ p.second.preheader ∉ l₂.blocks :=
  ⟨L.shape₂.preheader_not_mem_other L.loop₂ L.shape₁ L.loop₁ fun _ => L.disjoint',
    L.shape₂.preheader_not_mem L.loop₂⟩

theorem preheader_ne : p.first.preheader ≠ p.second.preheader :=
  L.shape₁.preheader_ne L.loop₁ L.shape₂ L.loop₂ fun _ => L.disjoint

theorem header₁_mem : p.first.header ∈ l₁.blocks := L.shape₁.header_mem L.loop₁

theorem header₂_mem : p.second.header ∈ l₂.blocks := L.shape₂.header_mem L.loop₂

theorem latch₁_mem : p.first.latch ∈ l₁.blocks := L.shape₁.latch_mem L.loop₁

theorem latch₂_mem : p.second.latch ∈ l₂.blocks := L.shape₂.latch_mem L.loop₂

theorem mem_successors_preheader₁ : b ∈ f.successors p.first.preheader ↔ b = p.first.header :=
  L.shape₁.mem_successors_preheader L.loop₁

theorem mem_successors_preheader₂ : b ∈ f.successors p.second.preheader ↔ b = p.second.header :=
  L.shape₂.mem_successors_preheader L.loop₂

theorem latch₁_ne_entry : p.first.latch ≠ f.entry := by
  intro e
  have h := Func.eq_entry_of_dominates (e ▸ L.loop₁.dominates_of_mem L.latch₁_mem)
  exact L.loop₁.header_ne_entry L.shape₁.preheader h

/-- A second body needs a latch of its own in both loops. -/
theorem latch_ne_header {first last : BlockId} (hbody : p.second.body = some (first, last)) :
    p.first.latch ≠ p.first.header ∧ p.second.latch ≠ p.second.header ∧ p.second.last = last :=
  ⟨(L.plan.code.body first last hbody).1.symm, (L.shape₂.body first last hbody).1, by simp [LoopShape.last, hbody]⟩

/-! ### Guards -/

section Guarded

variable {g : GuardShape} (hg : p.guards = some g)

include hg

theorem guards : GuardsOf f p.first p.second g := (L.plan.guarded g hg).2.2.1

theorem live_guard₁ : f.Live g.first := by
  obtain ⟨_, _, _, _, _, h, _⟩ := L.loop₁.guard_spec (L.plan.guarded g hg).1
  exact h

theorem live_guard₂ : f.Live g.second := by
  obtain ⟨_, _, _, _, _, h, _⟩ := L.loop₂.guard_spec (L.plan.guarded g hg).2.1
  exact h

/-- What the detection of guards says of the first guard, in terms of the plan. -/
theorem guard₁_spec : (∀ a, f.Live a → p.first.preheader ∈ f.successors a → a = g.first) ∧
    g.second ≠ p.first.preheader := by
  obtain ⟨q, _, skip, hq, _, _, _, hinto, hskip, hne, _⟩ := L.loop₁.guard_spec (L.plan.guarded g hg).1
  obtain rfl := Option.some.inj (hq.symm.trans L.shape₁.preheader)
  obtain rfl := Option.some.inj (hskip.symm.trans (L.guards hg).first)
  exact ⟨hinto, hne⟩

theorem guard₂_spec : (∀ a, f.Live a → p.second.preheader ∈ f.successors a → a = g.second) ∧
    g.join ≠ p.second.preheader := by
  obtain ⟨q, _, skip, hq, _, _, _, hinto, hskip, hne, _⟩ := L.loop₂.guard_spec (L.plan.guarded g hg).2.1
  obtain rfl := Option.some.inj (hq.symm.trans L.shape₂.preheader)
  obtain rfl := Option.some.inj (hskip.symm.trans (L.guards hg).second)
  exact ⟨hinto, hne⟩

theorem mem_successors_guard₁ : b ∈ f.successors g.first ↔ b = p.first.preheader ∨ b = g.second :=
  mem_successors_of_other (L.guards hg).first

theorem mem_successors_guard₂ : b ∈ f.successors g.second ↔ b = p.second.preheader ∨ b = g.join :=
  mem_successors_of_other (L.guards hg).second

theorem mem_successors_exit₁ : b ∈ f.successors p.first.exit ↔ b = g.second := by
  rw [mem_successors_of_term (L.guards hg).exit₁]
  exact List.mem_singleton

theorem mem_successors_exit₂ : b ∈ f.successors p.second.exit ↔ b = g.join := by
  rw [mem_successors_of_term (L.guards hg).exit₂]
  exact List.mem_singleton

/-! #### The guards are outside the loops -/

theorem guard₂_out₁ : g.second ∉ l₁.blocks := by
  intro hmem
  have hstep : p.second.preheader ∈ f.successors g.second := (L.mem_successors_guard₂ hg).mpr (Or.inl rfl)
  obtain ⟨_, h⟩ := L.shape₁.leave L.loop₁ hmem hstep L.preheader₂_out.1
  -- then the second preheader goes to the second guard, which would be the second header
  have hinto : p.second.header ∈ f.successors p.first.exit := h ▸ L.mem_successors_preheader₂.mpr rfl
  exact L.disjoint hmem ((L.mem_successors_exit₁ hg).mp hinto ▸ L.header₂_mem)

theorem guard₁_out₁ : g.first ∉ l₁.blocks := by
  intro hmem
  have hstep : p.first.preheader ∈ f.successors g.first := (L.mem_successors_guard₁ hg).mpr (Or.inl rfl)
  obtain ⟨_, h⟩ := L.shape₁.leave L.loop₁ hmem hstep L.preheader₁_out.1
  -- then the first preheader goes to the second guard, which would be the first header
  have hinto : p.first.header ∈ f.successors p.first.exit := h ▸ L.mem_successors_preheader₁.mpr rfl
  exact L.guard₂_out₁ hg ((L.mem_successors_exit₁ hg).mp hinto ▸ L.header₁_mem)

/-- The join is not the first header. -/
theorem join_ne_header₁ : g.join ≠ p.first.header := by
  intro e
  have hstep : p.first.header ∈ f.successors g.second := (L.mem_successors_guard₂ hg).mpr (Or.inr e.symm)
  rcases L.shape₁.into_header L.loop₁ (L.live_guard₂ hg) hstep with h | h
  · exact (L.guard₁_spec hg).2 h
  · exact L.guard₂_out₁ hg (h ▸ L.latch₁_mem)

theorem guard₁_out₂ : g.first ∉ l₂.blocks := by
  intro hmem
  have hstep : p.first.preheader ∈ f.successors g.first := (L.mem_successors_guard₁ hg).mpr (Or.inl rfl)
  obtain ⟨_, h⟩ := L.shape₂.leave L.loop₂ hmem hstep L.preheader₁_out.2
  have hinto : p.first.header ∈ f.successors p.second.exit := h ▸ L.mem_successors_preheader₁.mpr rfl
  exact L.join_ne_header₁ hg ((L.mem_successors_exit₂ hg).mp hinto).symm

theorem guard₂_out₂ : g.second ∉ l₂.blocks := by
  intro hmem
  by_cases hhead : g.second = p.second.header
  · -- then the preheader goes to the second guard
    have hstep : g.second ∈ f.successors p.second.preheader := hhead ▸ L.mem_successors_preheader₂.mpr rfl
    rcases ((L.guards hg).into _).mp hstep with h | h
    · have hstep : p.second.preheader ∈ f.successors g.second := (L.mem_successors_guard₂ hg).mpr (Or.inl rfl)
      obtain ⟨_, hx⟩ := L.shape₂.leave L.loop₂ hmem hstep L.preheader₂_out.2
      have hlatch := ((L.guards hg).into₁ p.second.latch).mp
        (L.shape₂.mem_successors_latch.mpr (Or.inr (h.symm.trans hx)))
      exact L.disjoint' L.latch₂_mem (hlatch ▸ L.latch₁_mem)
    · have hstep : p.first.preheader ∈ f.successors p.second.preheader :=
        h ▸ (L.mem_successors_guard₁ hg).mpr (Or.inl rfl)
      exact L.preheader₁_out.2 (L.mem_successors_preheader₂.mp hstep ▸ L.header₂_mem)
  · obtain ⟨a, ha, hstep⟩ := L.shape₂.exists_into L.loop₂ hmem hhead
    rcases ((L.guards hg).into _).mp hstep with rfl | rfl
    · exact L.exit₁_out.2 ha
    · exact L.guard₁_out₂ hg ha

theorem join_out₁ : g.join ∉ l₁.blocks := by
  intro hmem
  have hstep : g.join ∈ f.successors g.second := (L.mem_successors_guard₂ hg).mpr (Or.inr rfl)
  exact L.guard₂_out₁ hg (L.shape₁.into L.loop₁ hmem (L.join_ne_header₁ hg) (L.live_guard₂ hg) hstep)

theorem join_out₂ : g.join ∉ l₂.blocks := by
  intro hmem
  have hstep : g.join ∈ f.successors g.second := (L.mem_successors_guard₂ hg).mpr (Or.inr rfl)
  by_cases hhead : g.join = p.second.header
  · rw [hhead] at hstep
    rcases L.shape₂.into_header L.loop₂ (L.live_guard₂ hg) hstep with h | h
    · have hself := (L.mem_successors_guard₂ hg (b := p.second.preheader)).mpr (Or.inl rfl)
      rw [h] at hself
      exact L.preheader₂_out.2 (L.mem_successors_preheader₂.mp hself ▸ L.header₂_mem)
    · exact L.guard₂_out₂ hg (h ▸ L.latch₂_mem)
  · exact L.guard₂_out₂ hg (L.shape₂.into L.loop₂ hmem hhead (L.live_guard₂ hg) hstep)

/-- The blocks around a guarded pair are different, for they have different ways on. -/
theorem nodup_frame :
    [g.first, p.first.preheader, p.first.exit, g.second, p.second.preheader, p.second.exit].Nodup := by
  have hg₁ := fun b => L.mem_successors_guard₁ hg (b := b)
  have hg₂ := fun b => L.mem_successors_guard₂ hg (b := b)
  have hq₁ := fun b => L.mem_successors_preheader₁ (b := b)
  have hq₂ := fun b => L.mem_successors_preheader₂ (b := b)
  have hx₁ := fun b => L.mem_successors_exit₁ hg (b := b)
  have hx₂ := fun b => L.mem_successors_exit₂ hg (b := b)
  -- one way on of each block, which another block on the list does not have
  have w₁ : p.first.preheader ∈ f.successors g.first := (hg₁ _).mpr (Or.inl rfl)
  have w₂ : p.second.preheader ∈ f.successors g.second := (hg₂ _).mpr (Or.inl rfl)
  have w₃ : g.join ∈ f.successors g.second := (hg₂ _).mpr (Or.inr rfl)
  have w₄ : p.first.header ∈ f.successors p.first.preheader := (hq₁ _).mpr rfl
  have w₅ : p.second.header ∈ f.successors p.second.preheader := (hq₂ _).mpr rfl
  have w₆ : g.second ∈ f.successors g.first := (hg₁ _).mpr (Or.inr rfl)
  have hskip₁ := (L.guard₁_spec hg).2
  have hskip₂ := (L.guard₂_spec hg).2
  have hqne := L.preheader_ne
  have hq₁out := L.preheader₁_out
  have hq₂out := L.preheader₂_out
  have hout₁ := L.guard₂_out₁ hg
  have hout₂ := L.guard₂_out₂ hg
  have hjoin₁ := L.join_out₁ hg
  have hjoin₂ := L.join_out₂ hg
  have hh₁ := L.header₁_mem
  have hh₂ := L.header₂_mem
  have hexit : p.first.exit ≠ p.second.exit := by
    intro e
    have hlatch := ((L.guards hg).into₁ p.second.latch).mp (L.shape₂.mem_successors_latch.mpr (Or.inr e))
    exact L.disjoint' L.latch₂_mem (hlatch ▸ L.latch₁_mem)
  simp only [List.nodup_cons, List.mem_cons, List.not_mem_nil, or_false, not_or, not_false_eq_true, List.nodup_nil,
    and_true]
  refine ⟨?_, ?_, ?_, ?_, ?_⟩ <;> grind

/-- The join is none of these blocks, except that it may be the first guard. -/
theorem join_not_mem :
    g.join ∉ [p.first.preheader, p.first.exit, g.second, p.second.preheader, p.second.exit] := by
  have hstep : g.join ∈ f.successors g.second := (L.mem_successors_guard₂ hg).mpr (Or.inr rfl)
  have hframe := L.nodup_frame hg
  intro hmem
  simp only [List.mem_cons, List.not_mem_nil, or_false] at hmem
  rcases hmem with e | e | e | e | e
  · have h := (L.guard₁_spec hg).1 _ (L.live_guard₂ hg) (e ▸ hstep)
    simp [h] at hframe
  · exact L.guard₂_out₁ hg (((L.guards hg).into₁ _).mp (e ▸ hstep) ▸ L.latch₁_mem)
  · rw [e] at hstep
    rcases ((L.guards hg).into _).mp hstep with h | h <;> simp [h] at hframe
  · exact (L.guard₂_spec hg).2 e
  · exact L.guard₂_out₂ hg (((L.guards hg).into₂ _).mp (e ▸ hstep) ▸ L.latch₂_mem)

/-- The loops and their preheaders are apart from the guards, the exits and the join. -/
theorem apart (hb : b ∈ l₁.blocks ∨ b ∈ l₂.blocks ∨ b = p.first.preheader ∨ b = p.second.preheader) :
    b ≠ g.first ∧ b ≠ g.second ∧ b ≠ g.join ∧ b ≠ p.first.exit ∧ b ≠ p.second.exit := by
  have hframe := L.nodup_frame hg
  have hjoin := L.join_not_mem hg
  have hx₁ := L.exit₁_out
  have hx₂ := L.exit₂_out
  have hg₁ := And.intro (L.guard₁_out₁ hg) (L.guard₁_out₂ hg)
  have hg₂ := And.intro (L.guard₂_out₁ hg) (L.guard₂_out₂ hg)
  have hj := And.intro (L.join_out₁ hg) (L.join_out₂ hg)
  simp only [List.nodup_cons, List.mem_cons, List.not_mem_nil, or_false, not_or, not_false_eq_true, List.nodup_nil,
    and_true] at hframe hjoin
  grind

/-! #### What the guards dominate -/

theorem guard₁_dominates_guard₂ : f.Dominates g.first g.second := by
  have h := L.gateway
  rwa [Loop.gateway, Loop.gateway, (L.plan.guarded g hg).1, (L.plan.guarded g hg).2.1] at h

/-- The first loop leads to the second guard, so it does not start the function. -/
theorem not_entry_of_reaches (h : Reaches f.successors (· ≠ g.first) a p.first.exit) : a ≠ f.entry := by
  rintro rfl
  refine Func.dominates_iff_doms.mp (L.guard₁_dominates_guard₂ hg)
    (.tail h ((L.mem_successors_exit₁ hg).mpr rfl) fun e => ?_)
  have hframe := L.nodup_frame hg
  simp [e] at hframe

theorem exit₁_ne_entry : p.first.exit ≠ f.entry := by
  refine L.not_entry_of_reaches hg (.refl fun e => ?_)
  have hframe := L.nodup_frame hg
  simp [e] at hframe

theorem preheader₁_ne_entry : p.first.preheader ≠ f.entry := by
  have hframe := L.nodup_frame hg
  have hin : ∀ x ∈ l₁.blocks, x ≠ g.first := fun x hx e => L.guard₁_out₁ hg (e ▸ hx)
  have hloop := (L.loop₁.reaches_from_header L.latch₁_mem).mono hin
  rw [← L.shape₁.header] at hloop
  refine L.not_entry_of_reaches hg (.tail (.head (fun e => ?_) (L.mem_successors_preheader₁.mpr rfl) hloop)
    (L.shape₁.mem_successors_latch.mpr (Or.inr rfl)) fun e => ?_)
  · simp [e] at hframe
  · simp [e] at hframe

theorem guard₁_dominates_preheader₁ : f.Dominates g.first p.first.preheader := by
  refine Func.dominates_of_into (L.preheader₁_ne_entry hg) fun q hq hstep => Or.inl ?_
  rw [(L.guard₁_spec hg).1 q hq hstep]
  exact .refl _

theorem latch₁_dominates_exit₁ : f.Dominates p.first.latch p.first.exit := by
  refine Func.dominates_of_into (L.exit₁_ne_entry hg) fun q _ hstep => Or.inl ?_
  rw [((L.guards hg).into₁ q).mp hstep]
  exact .refl _

/-- The part of a guarded pair that the second guard skips is left by way of the join. -/
theorem leave_skipped (ha : a = p.second.preheader ∨ a ∈ l₂.blocks ∨ a = p.second.exit) (hstep : b ∈ f.successors a) :
    (b = p.second.preheader ∨ b ∈ l₂.blocks ∨ b = p.second.exit) ∨ a = p.second.exit ∧ b = g.join := by
  rcases ha with rfl | ha | rfl
  · exact Or.inl (Or.inr (Or.inl (L.mem_successors_preheader₂.mp hstep ▸ L.header₂_mem)))
  · by_cases hb : b ∈ l₂.blocks
    · exact Or.inl (Or.inr (Or.inl hb))
    · exact Or.inl (Or.inr (Or.inr (L.shape₂.leave L.loop₂ ha hstep hb).2))
  · exact Or.inr ⟨rfl, (L.mem_successors_exit₂ hg).mp hstep⟩

/-- A loop around the first loop that starts at the join has the skipped part go back to the join by the exit. -/
theorem exit₂_goes_back (hdom : f.Dominates g.join g.second) : f.Dominates g.join p.second.exit := by
  have hjoin := L.join_not_mem hg
  simp only [List.mem_cons, List.not_mem_nil, or_false, not_or] at hjoin
  obtain ⟨hj₁, hj₂, hj₃, hj₄, hj₅⟩ := hjoin
  have hback : g.join ∈ f.successors g.second := (L.mem_successors_guard₂ hg).mpr (Or.inr rfl)
  obtain ⟨k, hk, hhead, hin⟩ := Func.exists_loop ((L.live_guard₂ hg).step hback) hback (L.live_guard₂ hg) hdom
  have hloop := isLoop_of_mem hk
  -- the loop holds the first header, hence also the second
  have hx : p.first.exit ∈ k.blocks := hloop.mem_of_step hin (by rw [hhead]; exact Ne.symm hj₃)
    (L.shape₁.live_exit L.loop₁) ((L.mem_successors_exit₁ hg).mpr rfl)
  have hlatch : p.first.latch ∈ k.blocks := hloop.mem_of_step hx (by rw [hhead]; exact Ne.symm hj₂)
    (L.shape₁.live_latch L.loop₁) (L.shape₁.mem_successors_latch.mpr (Or.inr rfl))
  have hok : ∀ x, x ∈ l₁.blocks → f.Live x ∧ x ≠ k.header := by
    intro x hx
    refine ⟨L.loop₁.live_of_mem hx, ?_⟩
    rintro rfl
    exact L.join_out₁ hg (hhead ▸ hx)
  have hfirst := hloop.mem_of_reaches hok (L.loop₁.reaches_from_header L.latch₁_mem) hlatch
  have hne : k.header ≠ l₁.header := by
    rw [hhead, ← L.shape₁.header]
    exact L.join_ne_header₁ hg
  have hsecond := L.siblings.symm.around hk hne hfirst
  have hne₂ : l₂.header ≠ k.header := by
    rw [hhead]
    exact fun e => L.join_out₂ hg (e ▸ L.loop₂.header_mem)
  obtain ⟨t, ht, hr⟩ := ((hloop.blocks _).mp hsecond).resolve_left hne₂
  obtain ⟨hgo, _, hdt⟩ := (hloop.tails t).mp ht
  rw [hhead] at hgo hdt hr
  -- from the second header, the source of the back edge is in the skipped part
  have hstay : ∀ {x}, Reaches f.successors (fun x => f.Live x ∧ x ≠ g.join) l₂.header x →
      x = p.second.preheader ∨ x ∈ l₂.blocks ∨ x = p.second.exit := by
    intro x hx
    induction hx with
    | refl _ => exact Or.inr (Or.inl L.loop₂.header_mem)
    | tail _ hy hc ih => exact (L.leave_skipped hg ih hy).resolve_right fun h => hc.2 h.2
  rcases L.leave_skipped hg (hstay hr) hgo with h | ⟨rfl, _⟩
  · rcases h with h | h | h
    · exact absurd h hj₄
    · exact absurd h (L.join_out₂ hg)
    · exact absurd h hj₅
  · exact hdt

theorem skipped_ne_entry (hb : b = p.second.preheader ∨ b ∈ l₂.blocks ∨ b = p.second.exit) : b ≠ f.entry := by
  rintro rfl
  have hframe := L.nodup_frame hg
  have hjoin := L.join_not_mem hg
  simp only [List.mem_cons, List.not_mem_nil, or_false, not_or] at hjoin
  obtain ⟨_, _, _, hj₄, hj₅⟩ := hjoin
  have hdom : f.Dominates g.join g.second := by
    refine Func.dominates_of_leave (R := fun b => b = p.second.preheader ∨ b ∈ l₂.blocks ∨ b = p.second.exit)
      hb (fun x _ hx y hy => (L.leave_skipped hg hx hy).imp_right And.right) ?_
    rintro (h | h | h)
    · simp [h] at hframe
    · exact L.guard₂_out₂ hg h
    · simp [h] at hframe
  have hexit := L.exit₂_goes_back hg hdom
  rcases hb with h | h | h
  · -- from the preheader, the exit is reached around the join
    have hin : ∀ x ∈ l₂.blocks, x ≠ g.join := fun x hx e => L.join_out₂ hg (e ▸ hx)
    have hloop := (L.loop₂.reaches_from_header L.latch₂_mem).mono hin
    rw [← L.shape₂.header] at hloop
    refine Func.dominates_iff_doms.mp hexit ?_
    rw [h]
    exact .tail (.head (Ne.symm hj₄) (L.mem_successors_preheader₂.mpr rfl) hloop)
      (L.shape₂.mem_successors_latch.mpr (Or.inr rfl)) (Ne.symm hj₅)
  · exact L.loop₂.header_ne_entry L.shape₂.preheader (Func.eq_entry_of_dominates (L.loop₂.dominates_of_mem h))
  · exact hj₅ ((Func.eq_entry_of_dominates (h ▸ hexit)).trans h)

theorem guard₂_dominates_preheader₂ : f.Dominates g.second p.second.preheader := by
  refine Func.dominates_of_into (L.skipped_ne_entry hg (Or.inl rfl)) fun q hq hstep => Or.inl ?_
  rw [(L.guard₂_spec hg).1 q hq hstep]
  exact .refl _

theorem latch₂_dominates_exit₂ : f.Dominates p.second.latch p.second.exit := by
  refine Func.dominates_of_into (L.skipped_ne_entry hg (Or.inr (Or.inr rfl))) fun q _ hstep => Or.inl ?_
  rw [((L.guards hg).into₂ q).mp hstep]
  exact .refl _

end Guarded

/-! ### Without guards -/

section Unguarded

variable (hg : p.guards = none)

include hg

theorem header₁_dominates_header₂ : f.Dominates p.first.header p.second.header := by
  obtain ⟨_, h₁, h₂⟩ := L.unguarded hg
  have h := L.gateway
  rwa [Loop.gateway, Loop.gateway, h₁, h₂, Option.getD_none, Option.getD_none, ← L.shape₁.header,
    ← L.shape₂.header] at h

theorem header₁_dominates_preheader₂ : f.Dominates p.first.header p.second.preheader := by
  refine (L.header₁_dominates_header₂ hg).of_step (fun e => ?_) (L.mem_successors_preheader₂.mpr rfl)
  exact L.disjoint L.header₁_mem (e ▸ L.header₂_mem)

theorem into_preheader₂ (ha : f.Live a) (hstep : p.second.preheader ∈ f.successors a) : a = p.first.latch := by
  have hdom := L.header₁_dominates_header₂ hg
  rw [L.shape₁.header, L.shape₂.header] at hdom
  refine L.siblings.into_between L.shape₁.exitEdge ?_ hdom ha ((L.unguarded hg).1 ▸ hstep)
  rw [(L.unguarded hg).1]
  exact L.shape₂.preheader

end Unguarded

end Layout

/-! ## Early and late blocks -/

namespace Plan

/-- A block whose code moves and that is then out of use. -/
def Removed (p : Plan) (b : BlockId) : Prop :=
  b = p.second.header ∨ b = p.second.latch ∨ b = p.second.preheader ∨ b = p.first.exit ∨
    ∃ g, p.guards = some g ∧ b = g.second

/-- A block of the second loop that stays, between the bodies. -/
def Inner (p : Plan) (l₂ : Loop) (b : BlockId) : Prop := b ∈ l₂.blocks ∧ b ≠ p.second.header ∧ b ≠ p.second.latch

/-- A block between the first loop and the second exit. -/
def Late (p : Plan) (l₂ : Loop) (b : BlockId) : Prop := p.Removed b ∨ p.Inner l₂ b

/-- A block of the first loop or in front of it. -/
def Early (p : Plan) (l₁ : Loop) (b : BlockId) : Prop :=
  b ∈ l₁.blocks ∨ b = p.first.preheader ∨ ∃ g, p.guards = some g ∧ b = g.first

/-- The block by which control gets to the pair. -/
def top (p : Plan) : BlockId := p.guards.elim p.first.preheader GuardShape.first

end Plan

namespace Layout

variable {f : Func} {l₁ l₂ : Loop} {p : Plan} {a b d : BlockId} (L : Layout f l₁ l₂ p)

include L

theorem late_iff : p.Late l₂ b ↔
    b = p.first.exit ∨ b = p.second.preheader ∨ b ∈ l₂.blocks ∨ ∃ g, p.guards = some g ∧ b = g.second := by
  constructor
  · rintro ((rfl | rfl | rfl | rfl | h) | h)
    · exact Or.inr (Or.inr (Or.inl L.header₂_mem))
    · exact Or.inr (Or.inr (Or.inl L.latch₂_mem))
    · exact Or.inr (Or.inl rfl)
    · exact Or.inl rfl
    · exact Or.inr (Or.inr (Or.inr h))
    · exact Or.inr (Or.inr (Or.inl h.1))
  · rintro (rfl | rfl | h | h)
    · exact Or.inl (Or.inr (Or.inr (Or.inr (Or.inl rfl))))
    · exact Or.inl (Or.inr (Or.inr (Or.inl rfl)))
    · by_cases hh : b = p.second.header
      · exact Or.inl (Or.inl hh)
      · by_cases ht : b = p.second.latch
        · exact Or.inl (Or.inr (Or.inl ht))
        · exact Or.inr ⟨h, hh, ht⟩
    · exact Or.inl (Or.inr (Or.inr (Or.inr (Or.inr h))))

theorem live_of_late (hb : p.Late l₂ b) : f.Live b := by
  rcases L.late_iff.mp hb with rfl | rfl | h | ⟨g, hg, rfl⟩
  · exact L.shape₁.live_exit L.loop₁
  · exact L.shape₂.live_preheader L.loop₂
  · exact L.loop₂.live_of_mem h
  · exact L.live_guard₂ hg

/-- The late blocks are entered from the first latch and from the first guard. -/
theorem into_late (hb : p.Late l₂ b) (ha : f.Live a) (hstep : b ∈ f.successors a) :
    p.Late l₂ a ∨ a = p.first.latch ∧ b = p.first.exit ∨ ∃ g, p.guards = some g ∧ a = g.first ∧ b = g.second := by
  have hpre : b = p.second.preheader → p.Late l₂ a ∨ a = p.first.latch ∧ b = p.first.exit := by
    rintro rfl
    cases hg : p.guards with
    | none => exact Or.inr ⟨L.into_preheader₂ hg ha hstep, (L.unguarded hg).1.symm⟩
    | some g => exact Or.inl (L.late_iff.mpr (Or.inr (Or.inr (Or.inr ⟨g, hg, (L.guard₂_spec hg).1 a ha hstep⟩))))
  rcases L.late_iff.mp hb with rfl | h | h | ⟨g, hg, rfl⟩
  · cases hg : p.guards with
    | none => exact (hpre (L.unguarded hg).1).imp_right Or.inl
    | some g => exact Or.inr (Or.inl ⟨((L.guards hg).into₁ a).mp hstep, rfl⟩)
  · exact (hpre h).imp_right Or.inl
  · left
    by_cases e : b = p.second.header
    · rcases L.shape₂.into_header L.loop₂ ha (e ▸ hstep) with rfl | rfl
      · exact L.late_iff.mpr (Or.inr (Or.inl rfl))
      · exact L.late_iff.mpr (Or.inr (Or.inr (Or.inl L.latch₂_mem)))
    · exact L.late_iff.mpr (Or.inr (Or.inr (Or.inl (L.shape₂.into L.loop₂ h e ha hstep))))
  · rcases ((L.guards hg).into a).mp hstep with rfl | rfl
    · exact Or.inl (L.late_iff.mpr (Or.inl rfl))
    · exact Or.inr (Or.inr ⟨g, hg, rfl, rfl⟩)

theorem not_late_of_mem (hb : b ∈ l₁.blocks) : ¬p.Late l₂ b := by
  intro h
  rcases L.late_iff.mp h with rfl | rfl | h | ⟨g, hg, rfl⟩
  · exact L.exit₁_out.1 hb
  · exact L.preheader₂_out.1 hb
  · exact L.disjoint hb h
  · exact L.guard₂_out₁ hg hb

theorem preheader₁_not_late : ¬p.Late l₂ p.first.preheader := by
  intro h
  cases hg : p.guards with
  | none =>
    obtain ⟨hexit, _⟩ := L.unguarded hg
    rcases L.late_iff.mp h with h | h | h | ⟨g, hg', _⟩
    · exact L.preheader_ne (h.trans hexit)
    · exact L.preheader_ne h
    · exact L.preheader₁_out.2 h
    · simp [hg] at hg'
  | some g =>
    have hframe := L.nodup_frame hg
    rcases L.late_iff.mp h with h | h | h | ⟨g', hg', h⟩
    · simp [h] at hframe
    · exact L.preheader_ne h
    · exact L.preheader₁_out.2 h
    · obtain rfl : g = g' := by simpa [hg] using hg'
      simp [h] at hframe

theorem guard₁_not_late {g : GuardShape} (hg : p.guards = some g) : ¬p.Late l₂ g.first := by
  intro h
  have hframe := L.nodup_frame hg
  rcases L.late_iff.mp h with h | h | h | ⟨g', hg', h⟩
  · simp [h] at hframe
  · simp [h] at hframe
  · exact L.guard₁_out₂ hg h
  · obtain rfl : g = g' := by simpa [hg] using hg'
    simp [h] at hframe

theorem not_late_of_early (hb : p.Early l₁ b) : ¬p.Late l₂ b := by
  rcases hb with h | rfl | ⟨g, hg, rfl⟩
  · exact L.not_late_of_mem h
  · exact L.preheader₁_not_late
  · exact L.guard₁_not_late hg

omit L in
theorem early_top : p.Early l₁ p.top := by
  unfold Plan.top
  cases hg : p.guards with
  | none => exact Or.inr (Or.inl rfl)
  | some g => exact Or.inr (Or.inr ⟨g, hg, rfl⟩)

theorem top_dominates_preheader₁ : f.Dominates p.top p.first.preheader := by
  unfold Plan.top
  cases hg : p.guards with
  | none => exact .refl _
  | some g => exact L.guard₁_dominates_preheader₁ hg

theorem top_dominates_first (hb : b ∈ l₁.blocks) : f.Dominates p.top b :=
  L.top_dominates_preheader₁.trans ((L.shape₁.preheader_dominates_header L.loop₁).trans
    (L.shape₁.header_dominates L.loop₁ hb))

theorem top_dominates_preheader₂ : f.Dominates p.top p.second.preheader := by
  cases hg : p.guards with
  | none => exact (L.top_dominates_first L.header₁_mem).trans (L.header₁_dominates_preheader₂ hg)
  | some g =>
    rw [Plan.top, hg]
    exact (L.guard₁_dominates_guard₂ hg).trans (L.guard₂_dominates_preheader₂ hg)

theorem top_dominates_late (hb : p.Late l₂ b) : f.Dominates p.top b := by
  rcases L.late_iff.mp hb with rfl | rfl | h | ⟨g, hg, rfl⟩
  · cases hg : p.guards with
    | none => exact (L.unguarded hg).1 ▸ L.top_dominates_preheader₂
    | some g => exact (L.top_dominates_first L.latch₁_mem).trans (L.latch₁_dominates_exit₁ hg)
  · exact L.top_dominates_preheader₂
  · exact L.top_dominates_preheader₂.trans ((L.shape₂.preheader_dominates_header L.loop₂).trans
      (L.shape₂.header_dominates L.loop₂ h))
  · rw [Plan.top, hg]
    exact L.guard₁_dominates_guard₂ hg

theorem late_ne_entry (hb : p.Late l₂ b) : b ≠ f.entry := by
  rintro rfl
  exact L.not_late_of_early early_top (Func.eq_entry_of_dominates (L.top_dominates_late hb) ▸ hb)

theorem live_top : f.Live p.top := L.top_dominates_preheader₁.live (L.shape₁.live_preheader L.loop₁)

theorem exit₂_not_late : ¬p.Late l₂ p.second.exit := by
  intro h
  cases hg : p.guards with
  | none =>
    obtain ⟨hexit, _⟩ := L.unguarded hg
    have hpre : p.second.exit ≠ p.second.preheader := by
      intro e
      have hstep : p.second.preheader ∈ f.successors p.second.latch := L.shape₂.mem_successors_latch.mpr (Or.inr e.symm)
      have h := L.into_preheader₂ hg (L.shape₂.live_latch L.loop₂) hstep
      exact L.disjoint L.latch₁_mem (h ▸ L.latch₂_mem)
    rcases L.late_iff.mp h with h | h | h | ⟨g, hg', _⟩
    · exact hpre (h.trans hexit)
    · exact hpre h
    · exact L.exit₂_out.2 h
    · simp [hg] at hg'
  | some g =>
    have hframe := L.nodup_frame hg
    rcases L.late_iff.mp h with h | h | h | ⟨g', hg', h⟩
    · simp [h] at hframe
    · simp [h] at hframe
    · exact L.exit₂_out.2 h
    · obtain rfl : g = g' := by simpa [hg] using hg'
      simp [h] at hframe

theorem join_not_late {g : GuardShape} (hg : p.guards = some g) : ¬p.Late l₂ g.join := by
  intro h
  have hjoin := L.join_not_mem hg
  simp only [List.mem_cons, List.not_mem_nil, or_false, not_or] at hjoin
  rcases L.late_iff.mp h with h | h | h | ⟨g', hg', h⟩
  · exact hjoin.2.1 h
  · exact hjoin.2.2.2.1 h
  · exact L.join_out₂ hg h
  · obtain rfl : g = g' := by simpa [hg] using hg'
    exact hjoin.2.2.1 h

/-- No late block dominates an early one. -/
theorem not_dominates_early (hd : p.Late l₂ d) (hb : p.Early l₁ b) : ¬f.Dominates d b := by
  have htop : ¬f.Dominates d p.top := fun h =>
    L.not_late_of_early early_top ((L.top_dominates_late hd).antisymm h L.live_top ▸ hd)
  have hpre : ¬f.Dominates d p.first.preheader := by
    intro h
    cases hg : p.guards with
    | none => exact htop (by rwa [Plan.top, hg])
    | some g =>
      refine htop ?_
      rw [Plan.top, hg]
      refine h.of_step (fun e => L.preheader₁_not_late (e ▸ hd)) ?_
      exact (L.mem_successors_guard₁ hg).mpr (Or.inl rfl)
  rcases hb with h | rfl | ⟨g, hg, rfl⟩
  · -- a way to the header that avoids the late block goes on inside the loop
    intro hdom
    have hin : ∀ x ∈ l₁.blocks, x ≠ d := fun x hx e => L.not_late_of_mem hx (e ▸ hd)
    have hloop := (L.loop₁.reaches_from_header h).mono hin
    have hhead : f.Dominates d p.first.header := by
      rw [Func.dominates_iff_doms] at hdom ⊢
      rw [L.shape₁.header]
      exact fun h => hdom (h.trans hloop)
    exact hpre (hhead.of_step (fun e => hin _ L.header₁_mem e.symm) (L.mem_successors_preheader₁.mpr rfl))
  · exact hpre
  · rwa [Plan.top, hg] at htop

end Layout

end SsaFusion
