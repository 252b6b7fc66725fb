import SsaFusion.Proofs.Fusion.Reads
import SsaFusion.Proofs.Sweep.Validity

/-!
# Phis of the fused function

The edges into a block of the fused function are the edges into each block whose phis it has, with the renamed sources
(`edge_splice`, `exists_source`, `sourceName_inj`), and each phi reads at the end of a source what it read before. The one
exception is the join: it may have edges that the second guard, whose phis go there, has not.
-/

namespace SsaFusion

open Plan (phiDests bodyDests)

namespace Plan

variable (p : Plan) (f : Func)

/-- What a phi of a block receives from a source after fusion. The join receives what phis of the second guard would have
received from the first. -/
def sourceOperand (d : BlockId) (s : BlockId × Operand) : Operand :=
  let o := p.standInOperand s.2
  match p.guards with
  | some g =>
    if d = g.join ∧ s.1 = g.second then
      (o.var?.bind (Func.incomingFrom g.first ((f.phisAt g.second).map p.renamed)).get?).getD o
    else o
  | none => o

theorem sources?_phiPart (d : BlockId) (i : Instr) :
    ((p.resolved f d (p.renamed i)).mapSourceBlocks p.sourceName).sources? =
      i.sources?.map (List.map fun s => (p.sourceName s.1, p.sourceOperand f d s)) := by
  rw [Instr.sources?_mapSourceBlocks]
  unfold resolved sourceOperand
  cases p.guards with
  | none => simp [p.sources?_renamed, Function.comp_def]
  | some g =>
    by_cases e : d = g.join
    · simp only [e, if_true, Func.sources?_resolveSources, p.sources?_renamed, Option.map_map, true_and]
      refine congrArg (Option.map · i.sources?) (funext fun ss => ?_)
      simp only [Function.comp_apply, List.map_map]
      refine List.map_congr_left fun s _ => ?_
      by_cases e' : s.1 = g.second <;> simp [e']
    · simp [e, p.sources?_renamed, Function.comp_def]

end Plan

namespace Layout

variable {f : Func} {l₁ l₂ : Loop} {p : Plan} {a b c d q : BlockId} {v : ValueId} (L : Layout f l₁ l₂ p)

include L

/-! ## Renamed sources -/

theorem sourceName_preheader₂ : p.sourceName p.second.preheader = p.first.preheader := by
  have h₁ : p.first.preheader ≠ p.second.latch := fun e => L.preheader₁_out.2 (e ▸ L.latch₂_mem)
  cases hg : p.guards with
  | none => simp [Plan.sourceName, Plan.renamings, hg, h₁]
  | some g =>
    obtain ⟨_, h₂, _, h₃, _⟩ := L.apart hg (Or.inr (Or.inr (Or.inl rfl)))
    simp [Plan.sourceName, Plan.renamings, hg, h₁, h₂, h₃]

theorem sourceName_latch₂ : p.sourceName p.second.latch = p.first.latch := by
  have h₁ : p.second.latch ≠ p.second.preheader := fun e => L.preheader₂_out.2 (e ▸ L.latch₂_mem)
  cases hg : p.guards with
  | none => simp [Plan.sourceName, Plan.renamings, hg, h₁]
  | some g =>
    obtain ⟨_, h₂, _, h₃, _⟩ := L.apart hg (Or.inl L.latch₁_mem)
    simp [Plan.sourceName, Plan.renamings, hg, h₁, h₂, h₃]

section Guarded

variable {g : GuardShape} (hg : p.guards = some g)

include hg

theorem sourceName_guard₂ : p.sourceName g.second = g.first := by
  obtain ⟨_, h₂, h₃⟩ := L.guard₂_apart hg
  have hframe := L.nodup_frame hg
  have h₄ : g.first ≠ p.first.exit := by
    intro e
    simp [e] at hframe
  simp [Plan.sourceName, Plan.renamings, hg, h₂, h₃, h₄]

theorem sourceName_exit₁ : p.sourceName p.first.exit = p.second.exit := by
  obtain ⟨_, h₂, h₃, h₄⟩ := L.exit₁_apart hg
  simp [Plan.sourceName, Plan.renamings, hg, h₂, h₃, h₄]

end Guarded

omit L in
theorem sourceName_eq (h₁ : a ≠ p.second.preheader) (h₂ : a ≠ p.second.latch)
    (h₃ : ∀ g, p.guards = some g → a ≠ g.second ∧ a ≠ p.first.exit) : p.sourceName a = a := by
  cases hg : p.guards with
  | none => simp [Plan.sourceName, Plan.renamings, hg, h₁, h₂]
  | some g =>
    obtain ⟨h₃, h₄⟩ := h₃ g hg
    simp [Plan.sourceName, Plan.renamings, hg, h₁, h₂, h₃, h₄]

theorem sourceName_kept (ha : ¬p.Removed a) : p.sourceName a = a := by
  obtain ⟨_, h₂, h₁, h₃⟩ := L.kept_iff.mp ha
  exact sourceName_eq h₁ h₂ h₃

omit L in
/-- The blocks that other blocks stand for as sources, one by one. -/
theorem sourceName_cases (p : Plan) (a : BlockId) : p.sourceName a = a ∨ a = p.second.preheader ∨ a = p.second.latch ∨
    ∃ g, p.guards = some g ∧ (a = g.second ∨ a = p.first.exit) := by
  by_contra h
  simp only [not_or, not_exists, not_and] at h
  exact h.1 (sourceName_eq h.2.1 h.2.2.1 h.2.2.2)

/-- A source that is live after fusion was live. -/
theorem live_of_sourceName (h : (p.splice f).Live (p.sourceName a)) : f.Live a := by
  by_cases ha : p.Removed a
  · exact L.live_of_late (Or.inl ha)
  · rw [L.sourceName_kept ha] at h
    exact L.live_of_splice h

theorem sourceName_lt (hv : f.Valid) (ha : a < f.blocks.length) : p.sourceName a < f.blocks.length := by
  rcases sourceName_cases p a with h | rfl | rfl | ⟨g, hg, rfl | rfl⟩
  · rwa [h]
  · rw [L.sourceName_preheader₂]
    exact hv.live_lt (L.shape₁.live_preheader L.loop₁)
  · rw [L.sourceName_latch₂]
    exact hv.live_lt (L.shape₁.live_latch L.loop₁)
  · rw [L.sourceName_guard₂ hg]
    exact hv.live_lt (L.live_guard₁ hg)
  · rw [L.sourceName_exit₁ hg]
    exact hv.live_lt (L.shape₂.live_exit L.loop₂)

/-- No block is entered from a renamed block and from the one that stands for it. -/
theorem no_shared_successor (hne : p.sourceName a ≠ a) (ha : d ∈ f.successors a) : d ∉ f.successors (p.sourceName a) := by
  intro h
  rcases sourceName_cases p a with e | rfl | rfl | ⟨g, hg, rfl | rfl⟩
  · exact hne e
  · rw [L.sourceName_preheader₂, L.mem_successors_preheader₁] at h
    exact L.nodup_loops.1 (h.symm.trans (L.mem_successors_preheader₂.mp ha))
  · rw [L.sourceName_latch₂, L.shape₁.mem_successors_latch] at h
    rw [L.shape₂.mem_successors_latch] at ha
    rcases h with rfl | rfl <;> rcases ha with e | e
    · exact L.nodup_loops.1 e
    · exact L.exit₂_out.1 (e ▸ L.header₁_mem)
    · exact L.exit₁_out.2 (e ▸ L.header₂_mem)
    · exact L.exit₂_kept (e ▸ Or.inr (Or.inr (Or.inr (Or.inl rfl))))
  · rw [L.sourceName_guard₂ hg, L.mem_successors_guard₁ hg] at h
    rw [L.mem_successors_guard₂ hg] at ha
    have hjoin := L.join_not_mem hg
    rcases h with rfl | rfl <;> rcases ha with e | e
    · exact L.preheader_ne e
    · simp [e] at hjoin
    · exact (L.guard₂_apart hg).2.2 e
    · simp [e] at hjoin
  · rw [L.sourceName_exit₁ hg, L.mem_successors_exit₂ hg] at h
    rw [L.mem_successors_exit₁ hg] at ha
    have hjoin := L.join_not_mem hg
    simp [← h, ha] at hjoin

theorem mem_renamings (hne : p.sourceName a ≠ a) : (a, p.sourceName a) ∈ p.renamings := by
  rcases sourceName_cases p a with e | rfl | rfl | ⟨g, hg, rfl | rfl⟩
  · exact absurd e hne
  · simp [L.sourceName_preheader₂, Plan.renamings]
  · simp [L.sourceName_latch₂, Plan.renamings]
  · simp [L.sourceName_guard₂ hg, Plan.renamings, hg]
  · simp [L.sourceName_exit₁ hg, Plan.renamings, hg]

/-- No two renamed sources get the same name. -/
theorem nodup_renamings : (p.renamings.map Prod.snd).Nodup := by
  have hpre : p.first.preheader ≠ p.first.latch := fun e => L.preheader₁_out.1 (e ▸ L.latch₁_mem)
  cases hg : p.guards with
  | none => simp [Plan.renamings, hg, hpre]
  | some g =>
    obtain ⟨h₁, _, _, _, h₂⟩ := L.apart hg (Or.inr (Or.inr (Or.inl rfl)))
    obtain ⟨h₃, _, _, _, h₄⟩ := L.apart hg (Or.inl L.latch₁_mem)
    have h₅ : g.first ≠ p.second.exit := by
      intro e
      have hframe := L.nodup_frame hg
      simp [e] at hframe
    simp [Plan.renamings, hg, hpre, h₁, h₂, h₃, h₄, h₅]

/-- No two ways into a block come from sources with the same name. -/
theorem sourceName_inj {a' : BlockId} (ha : d ∈ f.successors a) (ha' : d ∈ f.successors a')
    (h : p.sourceName a = p.sourceName a') : a = a' := by
  by_cases e : p.sourceName a = a <;> by_cases e' : p.sourceName a' = a'
  · exact e.symm.trans (h.trans e')
  · rw [← e, h] at ha
    exact absurd ha (L.no_shared_successor e' ha')
  · rw [← e', ← h] at ha'
    exact absurd ha' (L.no_shared_successor e ha)
  · have := List.inj_on_of_nodup_map L.nodup_renamings (L.mem_renamings e) (L.mem_renamings e') h
    exact congrArg Prod.fst this

/-! ## Edges -/

/-- A block that has phis and whose phis or edges move. -/
theorem phis_of_cut (hphi : v ∈ phiDests f d) (hcut : p.Cut a d) :
    (a = p.first.latch ∧ ∃ g, p.guards = some g ∧ d = p.first.exit) ∨ ∃ g, p.guards = some g ∧ a = g.first ∧ d = g.second := by
  rcases hcut with ⟨ha, rfl⟩ | ⟨g, hg, ha, hd⟩ | ⟨first, last, hbody, ⟨_, rfl⟩ | ⟨_, rfl⟩⟩
  · cases hg : p.guards with
    | none => exact absurd ((L.unguarded hg).1 ▸ hphi) (no_phi L.plan.code.preheader₂)
    | some g => exact Or.inl ⟨ha, g, rfl, rfl⟩
  · exact Or.inr ⟨g, hg, ha, hd⟩
  · exact absurd hphi (no_phi (L.plan.code.latch₁ (L.latch_ne_header hbody).1))
  · exact absurd hphi (no_phi (L.plan.code.latch₂ (L.latch_ne_header hbody).2.1))

/-- Edges to other than late blocks are cut in front of the second body only. -/
theorem uncut (hb : ¬p.Late l₂ b) (hlatch : b = p.first.latch → p.second.body = none) : ¬p.Cut a b := by
  rintro (⟨_, rfl⟩ | ⟨g, hg, _, rfl⟩ | ⟨first, last, hbody, ⟨_, h⟩ | ⟨_, rfl⟩⟩)
  · exact hb (L.late_iff.mpr (Or.inl rfl))
  · exact hb (L.late_iff.mpr (Or.inr (Or.inr (Or.inr ⟨g, hg, rfl⟩))))
  · rw [hlatch h] at hbody
    cases hbody
  · exact hb (L.late_iff.mpr (Or.inr (Or.inr (Or.inl L.latch₂_mem))))

theorem header₁_uncut : ¬p.Cut a p.first.header := by
  refine L.uncut (L.not_late_of_mem L.header₁_mem) fun e => ?_
  cases hbody : p.second.body with
  | none => rfl
  | some body => exact absurd e.symm (L.latch_ne_header hbody).1

theorem join_uncut {g : GuardShape} (hg : p.guards = some g) : ¬p.Cut a g.join :=
  L.uncut (L.join_not_late hg) fun e => absurd (e ▸ L.latch₁_mem) (L.join_out₁ hg)

/-- The blocks that stay lead to removed blocks by edges that are cut. -/
theorem cut_of_removed (ha : ¬p.Removed a) (hlive : f.Live a) (hd : p.Removed d) (hstep : d ∈ f.successors a) :
    p.Cut a d := by
  rcases L.into_late (Or.inl hd) hlive hstep with h | h | h
  · have hin := h.resolve_left ha
    obtain ⟨first, last, hbody⟩ := L.body_of_inner hin
    rcases L.inner_step hbody hin hstep with h | h
    · exact absurd hd (L.not_removed_of_inner h)
    · exact Or.inr (Or.inr ⟨first, last, hbody, Or.inr h⟩)
  · exact Or.inl h
  · exact Or.inr (Or.inl h)

/-- Edges into a block with phis become edges into the block to which the phis go. -/
theorem edge_splice (hphi : v ∈ phiDests f d) (ha : d ∈ f.successors a) (hlive : (p.splice f).Live (p.sourceName a)) :
    p.phiHome d ∈ (p.splice f).successors (p.sourceName a) := by
  have kept : ∀ {x y}, y ∈ f.successors x → ¬p.Cut x y → y ∈ (p.splice f).successors x :=
    fun hstep hcut => L.mem_successors_splice.mpr (Or.inl ⟨hstep, hcut⟩)
  have added : ∀ {x y}, p.Added x y → y ∈ (p.splice f).successors x := fun h => L.mem_successors_splice.mpr (Or.inr h)
  rcases sourceName_cases p a with e | rfl | rfl | ⟨g, hg, rfl | rfl⟩
  · rw [e] at hlive ⊢
    by_cases hcut : p.Cut a d
    · rcases L.phis_of_cut hphi hcut with ⟨rfl, g, hg, rfl⟩ | ⟨g, hg, rfl, rfl⟩
      · rw [L.phiHome_exit₁ hg]
        exact added (Or.inl ⟨rfl, rfl⟩)
      · rw [L.phiHome_guard₂ hg]
        exact added (Or.inr (Or.inl ⟨g, hg, rfl, rfl⟩))
    · have hd : ¬p.Removed d := fun hr =>
        hcut (L.cut_of_removed (L.kept_of_live hlive) (L.live_of_splice hlive) hr ha)
      rw [phiHome_kept hd]
      exact kept ha hcut
  · rw [L.mem_successors_preheader₂.mp ha, phiHome_header₂, L.sourceName_preheader₂]
    exact kept (L.mem_successors_preheader₁.mpr rfl) L.header₁_uncut
  · rw [L.sourceName_latch₂]
    rcases L.shape₂.mem_successors_latch.mp ha with rfl | rfl
    · rw [phiHome_header₂]
      exact kept (L.shape₁.mem_successors_latch.mpr (Or.inl rfl)) L.header₁_uncut
    · rw [phiHome_kept L.exit₂_kept]
      exact added (Or.inl ⟨rfl, rfl⟩)
  · rw [L.sourceName_guard₂ hg]
    rcases (L.mem_successors_guard₂ hg).mp ha with rfl | rfl
    · exact absurd hphi (no_phi L.plan.code.preheader₂)
    · rw [phiHome_kept (L.join_kept hg)]
      exact added (Or.inr (Or.inl ⟨g, hg, rfl, rfl⟩))
  · rw [(L.mem_successors_exit₁ hg).mp ha, L.phiHome_guard₂ hg, L.sourceName_exit₁ hg]
    exact kept ((L.mem_successors_exit₂ hg).mpr rfl) (L.join_uncut hg)

/-- The edges that fusion adds to a block with phis. -/
theorem added_spec (hphi : v ∈ phiDests f c) (h : p.Added q c) :
    q = p.first.latch ∧ c = p.second.exit ∨ ∃ g, p.guards = some g ∧ q = g.first ∧ c = g.join := by
  rcases h with h | h | ⟨first, last, hbody, ⟨_, rfl⟩ | ⟨_, rfl⟩⟩
  · exact Or.inl h
  · exact Or.inr h
  · exact absurd hphi (no_phi (L.plan.code.body _ _ hbody).2.1)
  · exact absurd hphi (no_phi (L.plan.code.latch₁ (L.latch_ne_header hbody).1))

/-- The edges that fusion adds outside the loops. -/
theorem added_outside (h₁ : c ∉ l₁.blocks) (h₂ : c ∉ l₂.blocks) (h : p.Added q c) :
    q = p.first.latch ∧ c = p.second.exit ∨ ∃ g, p.guards = some g ∧ q = g.first ∧ c = g.join := by
  rcases h with h | h | ⟨first, last, hbody, ⟨_, rfl⟩ | ⟨_, rfl⟩⟩
  · exact Or.inl h
  · exact Or.inr h
  · exact absurd (L.inner_first hbody).1 h₂
  · exact absurd L.latch₁_mem h₁

/-- The third ways into the join, beside the second guard and the second exit. -/
def Bypassed (f : Func) (p : Plan) (g : GuardShape) : Prop :=
  ∃ q, f.Live q ∧ g.join ∈ f.successors q ∧ q ≠ g.second ∧ q ≠ p.second.exit

/-- Edges into the block to which phis go come from edges into the block where they were. -/
theorem exists_source (hphi : v ∈ phiDests f d) (hq : (p.splice f).Live q) (hstep : p.phiHome d ∈ (p.splice f).successors q)
    (hno : ∀ g, p.guards = some g → d = g.second → ¬Bypassed f p g) : ∃ a, d ∈ f.successors a ∧ p.sourceName a = q := by
  have hkept := L.kept_of_live hq
  have hlive := L.live_of_splice hq
  by_cases hd : p.Removed d
  · rcases L.removed_of_phi hd hphi with rfl | ⟨g, hg, rfl | rfl⟩
    · rw [phiHome_header₂] at hstep
      rcases L.mem_successors_splice.mp hstep with ⟨hold, _⟩ | hnew
      · rcases L.shape₁.into_header L.loop₁ hlive hold with rfl | rfl
        · exact ⟨_, L.mem_successors_preheader₂.mpr rfl, L.sourceName_preheader₂⟩
        · exact ⟨_, L.shape₂.mem_successors_latch.mpr (Or.inl rfl), L.sourceName_latch₂⟩
      · rcases L.added_spec L.induction₁_mem hnew with ⟨_, e⟩ | ⟨g, hg, _, e⟩
        · exact absurd (e ▸ L.header₁_mem) L.exit₂_out.1
        · exact absurd (e ▸ L.header₁_mem) (L.join_out₁ hg)
    · rw [L.phiHome_guard₂ hg] at hstep
      rcases L.mem_successors_splice.mp hstep with ⟨hold, _⟩ | hnew
      · by_cases e : q = p.second.exit
        · exact ⟨_, (L.mem_successors_exit₁ hg).mpr rfl, (L.sourceName_exit₁ hg).trans e.symm⟩
        · have hne : q ≠ g.second := fun h => hkept (h ▸ hd)
          exact absurd ⟨q, hlive, hold, hne, e⟩ (hno g hg rfl)
      · rcases L.added_outside (L.join_out₁ hg) (L.join_out₂ hg) hnew with ⟨_, e⟩ | ⟨g', hg', rfl, _⟩
        · exact absurd e (by simpa using fun h => L.join_not_mem hg (by simp [h]))
        · cases hg.symm.trans hg'
          refine ⟨_, (L.mem_successors_guard₁ hg).mpr (Or.inr rfl), L.sourceName_kept hkept⟩
    · rw [L.phiHome_exit₁ hg] at hstep
      rcases L.mem_successors_splice.mp hstep with ⟨hold, _⟩ | hnew
      · exact absurd (Or.inr (Or.inl (((L.guards hg).into₂ q).mp hold))) hkept
      · rcases L.added_outside L.exit₂_out.1 L.exit₂_out.2 hnew with ⟨rfl, _⟩ | ⟨g', hg', _, e⟩
        · exact ⟨_, L.shape₁.mem_successors_latch.mpr (Or.inr rfl), L.sourceName_kept hkept⟩
        · exact absurd e.symm (by simpa using fun h => L.join_not_mem hg' (by simp [h]))
  · rw [phiHome_kept hd] at hstep
    rcases L.mem_successors_splice.mp hstep with ⟨hold, _⟩ | hnew
    · exact ⟨q, hold, L.sourceName_kept hkept⟩
    · rcases L.added_spec hphi hnew with ⟨rfl, rfl⟩ | ⟨g, hg, rfl, rfl⟩
      · exact ⟨_, L.shape₂.mem_successors_latch.mpr (Or.inr rfl), L.sourceName_latch₂⟩
      · exact ⟨_, (L.mem_successors_guard₂ hg).mpr (Or.inr rfl), L.sourceName_guard₂ hg⟩

/-! ## Reads at the end of a source -/

section Valid

variable (hv : f.Valid)

include hv

/-- What was available at the end of the second latch is available at the end of the first. -/
theorem availableOut_latch₁ (h : f.AvailableOut p.second.latch v)
    (hjoin : ∀ g, p.guards = some g → v ∈ phiDests f g.second → f.Dominates g.join p.second.latch) :
    (p.splice f).AvailableOut p.first.latch (Snapshot.standIn p v) := by
  rcases h with h | ⟨d, hdom, hd⟩
  · exact Func.availableOut_iff.mpr (Or.inl (L.available_param hv h))
  · rcases mem_destsAt.mp hd with hd | hd
    · exact Or.inr ⟨_, L.phiHome_dominates_latch₁ hd hdom fun g hg e => hjoin g hg (e ▸ hd),
        L.mem_destsAt_of_home hv ⟨d, Or.inl ⟨hd, rfl⟩⟩⟩
    · exact Or.inr ⟨_, L.bodyHome_dominates_latch₁ hdom, L.mem_destsAt_of_home hv ⟨d, Or.inr ⟨hd, rfl⟩⟩⟩

section Guarded

variable {g : GuardShape} (hg : p.guards = some g)

include hg

theorem availableOut_exit₂ (h : f.AvailableOut p.first.exit v) :
    (p.splice f).AvailableOut p.second.exit (Snapshot.standIn p v) := by
  rw [Func.availableOut_iff] at h ⊢
  refine h.imp (L.availableIn_exit₂ hv hg) fun hd => L.mem_destsAt_of_home hv ?_
  rcases mem_destsAt.mp hd with hd | hd
  · exact ⟨_, Or.inl ⟨hd, (L.phiHome_exit₁ hg).symm⟩⟩
  · exact ⟨_, Or.inr ⟨hd, (L.bodyHome_exit₁ hg).symm⟩⟩

omit hv in
theorem guard₁_kept : ¬p.Inner l₂ g.first ∧ ¬p.Removed g.first :=
  ⟨fun h => L.guard₁_out₂ hg h.1, L.kept_of_early (Or.inr (Or.inr ⟨g, hg, rfl⟩))⟩

omit hv in
/-- No phi of the second guard is available before it. -/
theorem not_guardPhi (hv : f.Valid) (h : f.AvailableOut g.first v) : v ∉ phiDests f g.second := by
  intro hphi
  have hat := mem_destsAt.mpr (Or.inl hphi)
  rcases h with h | ⟨d, hdom, hd⟩
  · exact Func.not_mem_params hv.once hat h
  · obtain rfl := Func.destsAt_unique hv.once hd hat
    refine L.not_dominates_early (Or.inl ?_) (Or.inr (Or.inr ⟨g, hg, rfl⟩)) hdom
    exact Or.inr (Or.inr (Or.inr (Or.inr ⟨g, hg, rfl⟩)))

/-- What was available at the end of the second guard, its phis aside, is available at the end of the first. -/
theorem availableOut_guard₁ (h : f.AvailableOut g.second v) (hno : v ∉ phiDests f g.second) :
    (p.splice f).AvailableOut g.first (Snapshot.standIn p v) := by
  have hold : f.AvailableOut g.first v → (p.splice f).AvailableOut g.first (Snapshot.standIn p v) := fun h => by
    refine L.availableOut_of_kept hv (L.guard₁_kept hg).1 (L.guard₁_kept hg).2 h fun g' hg' hphi => ?_
    cases hg.symm.trans hg'
    exact absurd hphi hno
  rcases h with h | ⟨d, hdom, hd⟩
  · exact hold (Or.inl h)
  · by_cases e : d = g.second
    · subst e
      have hbody := (mem_destsAt.mp hd).resolve_left hno
      rw [Func.availableOut_iff]
      exact Or.inr (L.mem_destsAt_of_home hv ⟨_, Or.inr ⟨hbody, (L.bodyHome_guard₂ hg).symm⟩⟩)
    · exact hold (Or.inr ⟨d, hdom.of_step e ((L.mem_successors_guard₁ hg).mpr (Or.inr rfl)), hd⟩)

end Guarded

/-- A phi reads at the end of a renamed source what it read before. -/
theorem source_reads (hd : f.Live d) {i : Instr} (hi : i ∈ f.phisAt d) (hstay : p.stays i = true)
    {sources : List (BlockId × Operand)} (hs : i.sources? = some sources) {s : BlockId × Operand} (hsm : s ∈ sources)
    (hlive : (p.splice f).Live (p.sourceName s.1)) (hvar : s.2 = .var v)
    (hnot : ∀ g, p.guards = some g → ¬(d = g.join ∧ s.1 = g.second)) :
    (p.splice f).AvailableOut (p.sourceName s.1) (Snapshot.standIn p v) := by
  have hok := hv.phis d hd i (Func.mem_instrsOf_of_phi hi) sources hs
  have hstep := hok.edges s hsm
  have hvar' : s.2.var? = some v := by rw [hvar]; rfl
  have hav := hok.reads s hsm (L.live_of_sourceName hlive) v hvar'
  have hknown := known_of_available hav
  obtain ⟨w, hw⟩ := i.dest?_isSome_of_isPhi (f.isPhi_of_mem_phisAt hi)
  have hphi : w ∈ phiDests f d := List.mem_filterMap.mpr ⟨i, hi, hw⟩
  have hjoin : ∀ g, p.guards = some g → v ∈ phiDests f g.second → f.Dominates g.join s.1 := by
    intro g hg hgphi
    have h := L.join_dominates_of_phi hg hgphi hd hi hs hsm hvar
    split at h
    · exact absurd ⟨‹_›, h⟩ (hnot g hg)
    · exact h.2.of_step h.1 hstep
  have hmoved := (L.relocated hv).phis i
  rcases sourceName_cases p s.1 with e | e | e | ⟨g, hg, e | e⟩
  · rw [e] at hlive ⊢
    by_cases hin : p.Inner l₂ s.1
    · obtain ⟨first, last, hbody⟩ := L.body_of_inner hin
      rcases L.inner_step hbody hin hstep with h | ⟨_, rfl⟩
      · exact (L.relocated hv).innerPhis d h i hi sources hs s hsm hin v hvar' hknown
      · exact absurd hphi (no_phi (L.plan.code.latch₂ (L.latch_ne_header hbody).2.1))
    · exact L.availableOut_of_kept hv hin (L.kept_of_live hlive) hav hjoin
  · obtain rfl := L.mem_successors_preheader₂.mp (e ▸ hstep)
    have h := hmoved hi hstay sources hs s hsm v hvar' hknown
    rw [Snapshot.sourceHome, if_pos e] at h
    rwa [e, L.sourceName_preheader₂]
  · rw [e] at hjoin hav hstep
    rw [e, L.sourceName_latch₂]
    rcases L.shape₂.mem_successors_latch.mp hstep with rfl | rfl
    · have h := hmoved hi hstay sources hs s hsm v hvar' hknown
      have hne : p.second.latch ≠ p.second.preheader := fun e => L.preheader₂_out.2 (e ▸ L.latch₂_mem)
      rwa [Snapshot.sourceHome, e, if_neg hne] at h
    · exact L.availableOut_latch₁ hv hav hjoin
  · rcases (L.mem_successors_guard₂ hg).mp (e ▸ hstep) with rfl | rfl
    · exact absurd hphi (no_phi L.plan.code.preheader₂)
    · exact absurd ⟨rfl, e⟩ (hnot g hg)
  · rw [e] at hav ⊢
    rw [L.sourceName_exit₁ hg]
    exact L.availableOut_exit₂ hv hg hav

/-! ### The join -/

section Join

variable {g : GuardShape} (hg : p.guards = some g)

include hg

/-- The values that the phis of the second guard receive from the first. -/
theorem incoming_spec {w : ValueId} {o : Operand}
    (h : (Func.incomingFrom g.first ((f.phisAt g.second).map p.renamed)).get? w = some o) :
    ∀ u, o = .var u → (p.splice f).AvailableOut g.first u := by
  rintro u rfl
  have hmem := (Table.mem_or_get?_of_insertAll h).resolve_right (by simp)
  obtain ⟨_, hmem, he⟩ := List.mem_filterMap.mp hmem
  obtain ⟨j, hj, rfl⟩ := List.mem_map.mp hmem
  simp only [Option.bind_eq_bind, Option.bind_eq_some_iff, p.sources?_renamed, Option.map_eq_some_iff, Option.pure_def,
    Option.some.injEq, Prod.mk.injEq] at he
  obtain ⟨_, _, _, ⟨sources, hs, rfl⟩, s', hfind, rfl, ho⟩ := he
  obtain ⟨s, hsm, rfl⟩ := List.mem_map.mp (List.mem_of_find?_eq_some hfind)
  have hs₁ : s.1 = g.first := by simpa using List.find?_some hfind
  obtain ⟨v, hvar, rfl⟩ := Plan.eq_var_of_standInOperand ho
  have hok := hv.phis _ (L.live_guard₂ hg) j (Func.mem_instrsOf_of_phi hj) sources hs
  have hav := hok.reads s hsm (hs₁ ▸ L.live_guard₁ hg) v (by rw [hvar]; rfl)
  rw [hs₁] at hav
  refine L.availableOut_of_kept hv (L.guard₁_kept hg).1 (L.guard₁_kept hg).2 hav fun g' hg' hphi => ?_
  cases hg.symm.trans hg'
  exact absurd hphi (L.not_guardPhi hg hv hav)

/-- Every phi of the second guard receives a value from the first. -/
theorem incoming_isSome (h : v ∈ phiDests f g.second) :
    ∃ o, (Func.incomingFrom g.first ((f.phisAt g.second).map p.renamed)).get? v = some o := by
  obtain ⟨j, hj, hd⟩ := List.mem_filterMap.mp h
  obtain ⟨sources, hs⟩ := j.isPhi_iff_sources.mp (f.isPhi_of_mem_phisAt hj)
  have hok := hv.phis _ (L.live_guard₂ hg) j (Func.mem_instrsOf_of_phi hj) sources hs
  have hone := hok.once _ (L.live_guard₁ hg) ((L.mem_successors_guard₁ hg).mpr (Or.inr rfl))
  obtain ⟨s, hsm, hs₁⟩ := List.countP_pos_iff.mp (Nat.lt_of_lt_of_eq Nat.zero_lt_one hone.symm)
  have hfind : ((sources.map fun s => (s.1, p.standInOperand s.2)).find? (·.1 == g.first)).isSome := by
    rw [List.find?_isSome]
    exact ⟨_, List.mem_map.mpr ⟨s, hsm, rfl⟩, hs₁⟩
  obtain ⟨t, ht⟩ := Option.isSome_iff_exists.mp hfind
  refine Table.get?_insertAll_isSome (Or.inl (List.mem_map.mpr ⟨(v, t.2), List.mem_filterMap.mpr ⟨p.renamed j, ?_, ?_⟩, rfl⟩))
  · exact List.mem_map.mpr ⟨j, hj, rfl⟩
  · simp [hd, p.sources?_renamed, hs, ht]

end Join

/-- What a phi receives from a source is available at its end. -/
theorem sourceOperand_reads (hd : f.Live d) {i : Instr} (hi : i ∈ f.phisAt d) (hstay : p.stays i = true)
    {sources : List (BlockId × Operand)} (hs : i.sources? = some sources) {s : BlockId × Operand} (hsm : s ∈ sources)
    (hlive : (p.splice f).Live (p.sourceName s.1)) {w : ValueId} (hw : p.sourceOperand f d s = .var w) :
    (p.splice f).AvailableOut (p.sourceName s.1) w := by
  have plain : (∀ g, p.guards = some g → ¬(d = g.join ∧ s.1 = g.second)) → p.standInOperand s.2 = .var w →
      (p.splice f).AvailableOut (p.sourceName s.1) w := by
    intro hnot h
    obtain ⟨v, hvar, rfl⟩ := Plan.eq_var_of_standInOperand h
    exact L.source_reads hv hd hi hstay hs hsm hlive hvar hnot
  unfold Plan.sourceOperand at hw
  cases hg : p.guards with
  | none =>
    simp only [hg] at hw
    exact plain (fun g h => by rw [hg] at h; cases h) hw
  | some g =>
    simp only [hg] at hw
    by_cases hc : d = g.join ∧ s.1 = g.second
    · rw [if_pos hc] at hw
      rw [hc.2, L.sourceName_guard₂ hg]
      cases ho : s.2 with
      | lit l => simp [ho, Plan.standInOperand, Operand.var?] at hw
      | var v =>
        simp only [ho, Plan.standInOperand, Operand.var?, Option.bind_some] at hw
        cases ht : (Func.incomingFrom g.first ((f.phisAt g.second).map p.renamed)).get? (Snapshot.standIn p v) with
        | some o =>
          rw [ht, Option.getD_some] at hw
          exact L.incoming_spec hv hg ht w hw
        | none =>
          rw [ht, Option.getD_none] at hw
          cases hw
          have hok := hv.phis d hd i (Func.mem_instrsOf_of_phi hi) sources hs
          have hav := hok.reads s hsm (hc.2 ▸ L.live_guard₂ hg) v (by rw [ho]; rfl)
          refine L.availableOut_guard₁ hv hg (hc.2 ▸ hav) fun hphi => ?_
          rw [L.standIn_eq hv (b := g.second) (Or.inl ⟨(L.guard₂_apart hg).1, mem_destsAt.mpr (Or.inl hphi)⟩)] at ht
          obtain ⟨o, h⟩ := L.incoming_isSome hv hg hphi
          rw [ht] at h
          cases h
    · rw [if_neg hc] at hw
      refine plain (fun g' h => ?_) hw
      cases hg.symm.trans h
      exact hc

end Valid

end Layout

end SsaFusion
