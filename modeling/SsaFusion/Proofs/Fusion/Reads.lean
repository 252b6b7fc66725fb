import SsaFusion.Proofs.Fusion.Placement

/-!
# Reads of the fused function

Every instruction and every terminator of a live block of the fused function reads available values (`reads_splice`,
`termReads_splice`). Code that stays reads as before, since the new homes of values dominate what the old ones did; phis
of the second guard, which move behind their block, are only read behind the join. Code that moves was checked.
-/

namespace SsaFusion

open Plan (phiDests bodyDests)

/-- Phis are checked with the edges into their block. -/
theorem ReadsOk.of_phis {avail : ValueId → Prop} {is : List Instr} (h : ∀ i ∈ is, i.isPhi = true) : ReadsOk avail is := by
  induction is generalizing avail with
  | nil => trivial
  | cons i rest ih =>
    refine ⟨fun hnot => ?_, ih fun j hj => h j (List.mem_cons_of_mem _ hj)⟩
    rw [h i (List.mem_cons_self ..)] at hnot
    cases hnot

namespace Plan

variable {p : Plan} {f : Func} {x : BlockId} {done ds : List BlockId} {v : ValueId}

theorem Seen.mono {as as' : List BlockId} (h : ∀ a ∈ as, a ∈ as') (hs : p.Seen f x as v) : p.Seen f x as' v :=
  hs.imp_right (Or.imp_right fun ⟨a, ha, hrest⟩ => ⟨a, h a ha, hrest⟩)

/-- The code that a block has from each of the given blocks reads what is there before. -/
def PiecesOk (p : Plan) (f : Func) (x : BlockId) (done : List BlockId) : List BlockId → Prop
  | [] => True
  | d :: ds => (x = p.bodyHome d → ReadsOk (p.Seen f x done) (p.bodyPart f d)) ∧ PiecesOk p f x (done ++ [d]) ds

theorem piecesOk_append {ds' : List BlockId} :
    p.PiecesOk f x done (ds ++ ds') ↔ p.PiecesOk f x done ds ∧ p.PiecesOk f x (done ++ ds) ds' := by
  induction ds generalizing done with
  | nil => simp [PiecesOk]
  | cons d ds ih => simp [PiecesOk, ih, and_assoc]

theorem dests_bodyPart {d : BlockId} : (p.bodyPart f d).filterMap Instr.dest? = bodyDests f d := by
  simp [bodyPart, bodyDests, List.filterMap_map]

theorem readsOk_of_pieces (h : p.PiecesOk f x done ds) :
    ReadsOk (p.Seen f x done) ((ds.filter (x = p.bodyHome ·)).flatMap (p.bodyPart f)) := by
  induction ds generalizing done with
  | nil => trivial
  | cons d ds ih =>
    have htail := ih h.2
    by_cases e : x = p.bodyHome d
    · rw [List.filter_cons_of_pos (by simpa using e), List.flatMap_cons, ReadsOk.append]
      refine ⟨h.1 e, htail.mono fun v hs => ?_⟩
      rcases hs with hs | hs | ⟨a, ha, hhome, hd⟩
      · exact Or.inl (Or.inl hs)
      · exact Or.inl (Or.inr (Or.inl hs))
      · rcases List.mem_append.mp ha with ha | ha
        · exact Or.inl (Or.inr (Or.inr ⟨a, ha, hhome, hd⟩))
        · rw [dests_bodyPart, ← List.mem_singleton.mp ha]
          exact Or.inr hd
    · rw [List.filter_cons_of_neg (by simpa using e)]
      refine htail.mono fun v hs => hs.imp_right (Or.imp_right ?_)
      rintro ⟨a, ha, hhome, hd⟩
      rcases List.mem_append.mp ha with ha | ha
      · exact ⟨a, ha, hhome, hd⟩
      · exact absurd (List.mem_singleton.mp ha ▸ hhome) e

end Plan

namespace Layout

variable {f : Func} {l₁ l₂ : Loop} {p : Plan} {a b c d u x : BlockId} {v : ValueId} (L : Layout f l₁ l₂ p)

include L

/-! ## Reads of guard phis -/

section GuardPhis

variable {g : GuardShape} (hg : p.guards = some g) (hphi : v ∈ phiDests f g.second) (hb : f.Live b)

include hg hphi hb

omit L hg hphi in
theorem pastJoin_iff : (Snapshot.of f).pastJoin g b = true ↔ f.StrictlyDominates g.join b := by
  unfold Snapshot.pastJoin DomTree.strictlyDominates
  rw [Bool.and_eq_true, bne_iff_ne]
  exact and_congr_right fun _ => Func.dominators_dominates_of_live hb

/-- Where the phis of the second guard are read. -/
theorem guardPhi_spec :
    (∀ i ∈ f.instrsOf b, v ∈ i.reads → (Snapshot.of f).mayReadGuardPhi g v b i = true) ∧
    ∀ t, f.term? b = some t → v ∈ valuesOf t.operands → f.Dominates g.join b := by
  have hno := (L.plan.guarded g hg).2.2.2 v hphi
  unfold Snapshot.guardPhiEscapes at hno
  simp only [List.any_eq_false, Prod.forall] at hno
  constructor
  · intro i hi hr
    cases hblk : f.block? b with
    | none => simp [Func.instrsOf, hblk] at hi
    | some blk =>
      rw [Func.instrsOf_eq hblk] at hi
      have := hno blk b (Func.mem_numbered.mpr hblk)
      simp only [Bool.or_eq_true, not_or, List.any_eq_true, not_exists, not_and, Bool.and_eq_true] at this
      by_contra hc
      exact this.1 i hi (by simpa [Instr.uses] using hr) (by simpa using hc)
  · intro t ht hr
    obtain ⟨blk, hblk, rfl⟩ := Option.map_eq_some_iff.mp ht
    have := hno blk b (Func.mem_numbered.mpr hblk)
    simp only [Bool.or_eq_true, not_or, Bool.and_eq_true, not_and, bne_iff_ne, ne_eq, and_imp, Bool.not_eq_true',
      Bool.not_eq_false] at this
    by_cases e : b = g.join
    · exact e ▸ .refl _
    · exact ((pastJoin_iff hb).mp (this.2 (by simpa [Terminator.uses] using hr) e)).2

/-- Code that reads a phi of the second guard is run behind the join. -/
theorem join_dominates_of_read {i : Instr} (hi : i ∈ f.bodyAt b) (hnot : i.isPhi = false) (hr : v ∈ i.reads) :
    f.Dominates g.join b := by
  have h := (L.guardPhi_spec hg hphi hb).1 i (Func.mem_instrsOf_of_body hi) hr
  unfold Snapshot.mayReadGuardPhi at h
  rw [i.sources?_eq_none hnot] at h
  simp only [Bool.or_eq_true, beq_iff_eq] at h
  rcases h with rfl | h
  · exact .refl _
  · exact ((pastJoin_iff hb).mp h).2

/-- A phi that reads a phi of the second guard stands behind the join, or in it for the edge from the guard. -/
theorem join_dominates_of_phi {i : Instr} (hi : i ∈ f.phisAt b) {sources : List (BlockId × Operand)}
    (hs : i.sources? = some sources) {s : BlockId × Operand} (hsm : s ∈ sources) (hvar : s.2 = .var v) :
    if b = g.join then s.1 = g.second else f.StrictlyDominates g.join b := by
  have hr : v ∈ i.reads := (i.mem_reads_of_sources hs).mpr ⟨s, hsm, hvar⟩
  have h := (L.guardPhi_spec hg hphi hb).1 i (Func.mem_instrsOf_of_phi hi) hr
  unfold Snapshot.mayReadGuardPhi at h
  simp only [hs] at h
  split at h
  · rename_i e
    rw [if_pos e]
    simpa using List.all_eq_true.mp h s (List.mem_filter.mpr ⟨hsm, by simpa using hvar⟩)
  · rename_i e
    rw [if_neg e]
    exact (pastJoin_iff hb).mp h

end GuardPhis

/-! ## Code that stays -/

section Valid

variable (hv : f.Valid)

include hv

omit L hv in
theorem eq_home_cases (hne : d ≠ b) (hhome : b = p.bodyHome d ∨ b = p.phiHome d) : p.Removed d := by
  by_contra hkept
  rcases hhome with h | h
  · exact hne (h.trans (bodyHome_kept hkept)).symm
  · exact hne (h.trans (phiHome_kept hkept)).symm

/-- A value of a block that dominated another is available there, or comes to it with other code. -/
theorem availableIn_of_dominates (hu : ¬p.Inner l₂ u) (hdom : f.StrictlyDominates d u) (hd : v ∈ f.destsAt d)
    (hjoin : ∀ g, p.guards = some g → v ∈ phiDests f g.second → f.Dominates g.join u) :
    (p.splice f).AvailableIn u (Snapshot.standIn p v) ∨ Snapshot.standIn p v ∈ phiDests (p.splice f) u ∨
      ∃ g, p.guards = some g ∧ u = p.second.exit ∧ Snapshot.standIn p v ∈ bodyDests f p.first.exit := by
  have early : ∀ {y}, p.Late l₂ d → p.Early l₁ y → y ≠ u := fun hl he e => L.not_dominates_early hl he (e ▸ hdom.2)
  rcases mem_destsAt.mp hd with hphi | hbody
  · have hnew := L.dominates_phiHome hphi hdom.2 hu fun g hg e => hjoin g hg (e ▸ hphi)
    by_cases e : p.phiHome d = u
    · have hr : p.Removed d := eq_home_cases hdom.1 (Or.inr e.symm)
      have hhead : d ≠ p.second.header := by
        rintro rfl
        rw [phiHome_header₂] at e
        exact early (Or.inl hr) (Or.inl L.header₁_mem) e
      refine Or.inr (Or.inl ?_)
      rw [L.standIn_eq hv (b := d) (Or.inl ⟨hhead, hd⟩)]
      refine (L.mem_phiDests_splice hv).mpr ⟨d, hphi, ?_, e.symm⟩
      by_contra hun
      exact hhead ((L.unifies_spec hv (by simpa using hun)).1 d hd)
    · exact Or.inl (Or.inr ⟨_, ⟨e, hnew⟩, L.mem_destsAt_of_home hv ⟨d, Or.inl ⟨hphi, rfl⟩⟩⟩)
  · have hnew := L.dominates_bodyHome hdom.2 hu
    by_cases e : p.bodyHome d = u
    · have hr : p.Removed d := eq_home_cases hdom.1 (Or.inl e.symm)
      rw [L.standIn_eq hv (Or.inr (Or.inl hbody))]
      have moved : p.Moved d → False := fun hm => early (Or.inl hr) (L.early_bodyHome hm) e
      rcases L.removed_cases hr with h | h | h | ⟨g, hg, h | rfl⟩
      · exact (moved (Or.inr (Or.inl h))).elim
      · exact (moved (Or.inr (Or.inr (Or.inl h)))).elim
      · exact (moved (Or.inl h)).elim
      · exact (moved (Or.inr (Or.inr (Or.inr ⟨g, hg, h⟩)))).elim
      · exact Or.inr (Or.inr ⟨g, hg, e.symm.trans (L.bodyHome_exit₁ hg), hbody⟩)
    · exact Or.inl (Or.inr ⟨_, ⟨e, hnew⟩, L.mem_destsAt_of_home hv ⟨d, Or.inr ⟨hbody, rfl⟩⟩⟩)

/-- What was available at the end of a block that stays still is. -/
theorem availableOut_of_kept (hu : ¬p.Inner l₂ u) (hkept : ¬p.Removed u) (h : f.AvailableOut u v)
    (hjoin : ∀ g, p.guards = some g → v ∈ phiDests f g.second → f.Dominates g.join u) :
    (p.splice f).AvailableOut u (Snapshot.standIn p v) := by
  rw [Func.availableOut_iff]
  rcases Func.availableOut_iff.mp h with (h | ⟨d, hdom, hd⟩) | h
  · exact Or.inl (L.available_param hv h)
  · refine (L.availableIn_of_dominates hv hu hdom hd hjoin).imp_right ?_
    rintro (hphi | ⟨g, hg, rfl, hbody⟩)
    · exact mem_destsAt.mpr (Or.inl hphi)
    · exact (L.mem_destsAt_splice hv).mpr ⟨_, Or.inr ⟨hbody, (L.bodyHome_exit₁ hg).symm⟩⟩
  · refine Or.inr (L.mem_destsAt_of_home hv ?_)
    rcases mem_destsAt.mp h with h | h
    · exact ⟨u, Or.inl ⟨h, (phiHome_kept hkept).symm⟩⟩
    · exact ⟨u, Or.inr ⟨h, (bodyHome_kept hkept).symm⟩⟩

omit L in
theorem standIn_of_bodyDests (L : Layout f l₁ l₂ p) : ∀ w ∈ (f.bodyAt b).filterMap Instr.dest?, Snapshot.standIn p w = w :=
  fun _ hw => L.standIn_eq hv (b := b) (Or.inr (Or.inl hw))

/-- Outside the second body, the code of a block that stays reads as before. -/
theorem reads_kept (hlive : f.Live u) (hu : ¬p.Inner l₂ u) (hkept : ¬p.Removed u) :
    ReadsOk (p.Seen f u (p.guards.elim [] fun _ => [p.first.exit])) (p.bodyPart f u) := by
  refine (hv.bodyReads hlive).renamed (fun i hi hnot v hr hav => ?_) (standIn_of_bodyDests hv L)
  have hjoin : ∀ g, p.guards = some g → v ∈ phiDests f g.second → f.Dominates g.join u :=
    fun g hg hphi => L.join_dominates_of_read hg hphi hlive hi hnot hr
  rcases hav with (h | ⟨d, hdom, hd⟩) | h
  · exact Or.inl (L.available_param hv h)
  · rcases L.availableIn_of_dominates hv hu hdom hd hjoin with h | h | ⟨g, hg, rfl, h⟩
    · exact Or.inl h
    · exact Or.inr (Or.inl h)
    · exact Or.inr (Or.inr ⟨_, by simp [hg], (L.bodyHome_exit₁ hg).symm, h⟩)
  · have hne : u ≠ p.second.header := fun e => hkept (Or.inl e)
    rw [L.standIn_eq hv (b := u) (Or.inl ⟨hne, mem_destsAt.mpr (Or.inl h)⟩)]
    exact Or.inr (Or.inl (L.mem_phiDests_kept hv hkept h))

/-! ## Code that moves to the second exit -/

section Exits

variable {g : GuardShape} (hg : p.guards = some g)

include hg

omit hv in
theorem latch₁_dominates_exit₂ : (p.splice f).Dominates p.first.latch p.second.exit := by
  refine L.dominates_moved (d := p.second.latch) (Or.inr (Or.inl rfl)) (Or.inl (.refl _)) (fun g' hg' e => ?_)
    (L.latch₂_dominates_exit₂ hg) fun h => L.exit₂_out.2 h.1
  exact absurd e (L.guard₂_apart hg').2.1.symm

/-- What was available at the first exit is available at the second, which takes over its code. -/
theorem availableIn_exit₂ (h : f.AvailableIn p.first.exit v) :
    (p.splice f).AvailableIn p.second.exit (Snapshot.standIn p v) := by
  rcases h with h | ⟨d, hdom, hd⟩
  · exact L.available_param hv h
  · have hlatch : f.Dominates d p.first.latch :=
      hdom.2.of_step hdom.1 (L.shape₁.mem_successors_latch.mpr (Or.inr rfl))
    have hlate : ¬p.Late l₂ d := fun hl => L.not_dominates_early hl (Or.inl L.latch₁_mem) hlatch
    have hkept : ¬p.Removed d := fun h => hlate (Or.inl h)
    have hnew := (L.dominates_kept hkept hlatch fun h => L.disjoint L.latch₁_mem h.1).trans (L.latch₁_dominates_exit₂ hg)
    have hne : d ≠ p.second.exit := by
      rintro rfl
      have hback := (L.latch₂_dominates_exit₂ hg).trans hlatch
      exact L.not_dominates_early (Or.inl (Or.inr (Or.inl rfl))) (Or.inl L.latch₁_mem) hback
    have hhead : d ≠ p.second.header := fun e => hkept (Or.inl e)
    have hun : p.unifies v = false := by
      by_contra hun
      exact hhead ((L.unifies_spec hv (by simpa using hun)).1 d hd)
    rw [standIn_of_not_unifies hun]
    exact Or.inr ⟨d, ⟨hne, hnew⟩, L.mem_destsAt_kept hv hkept hun hd⟩

theorem standIn_exit₁ (h : v ∈ f.destsAt p.first.exit) : Snapshot.standIn p v = v :=
  L.standIn_eq hv (b := p.first.exit) (Or.inl ⟨(L.exit₁_apart hg).1, h⟩)

theorem mem_phiDests_exit₂ (h : v ∈ phiDests f p.first.exit) : v ∈ phiDests (p.splice f) p.second.exit := by
  have hat := mem_destsAt.mpr (Or.inl h)
  refine (L.mem_phiDests_splice hv).mpr ⟨_, h, ?_, (L.phiHome_exit₁ hg).symm⟩
  by_contra hun
  exact (L.exit₁_apart hg).1 ((L.unifies_spec hv (by simpa using hun)).1 _ hat)

theorem reads_exit₁ : ReadsOk (p.Seen f p.second.exit []) (p.bodyPart f p.first.exit) := by
  refine (hv.bodyReads (L.shape₁.live_exit L.loop₁)).renamed (fun i hi hnot v hr hav => ?_) (standIn_of_bodyDests hv L)
  rcases hav with h | h
  · exact Or.inl (L.availableIn_exit₂ hv hg h)
  · rw [L.standIn_exit₁ hv hg (mem_destsAt.mpr (Or.inl h))]
    exact Or.inr (Or.inl (L.mem_phiDests_exit₂ hv hg h))

end Exits

/-! ## The second body -/

omit L hv in
theorem known_of_available (h : f.AvailableOut b v) : v ∈ f.params ∨ v ∈ f.dests := by
  rcases h with h | ⟨d, _, h⟩
  · exact Or.inl h
  · exact Or.inr (Func.mem_dests.mpr ⟨d, h⟩)

/-- Inside the second body, code reads what is available. -/
theorem reads_inner (hu : p.Inner l₂ u) : ReadsOk (p.Seen f u []) (p.bodyPart f u) := by
  have hlive : f.Live u := L.loop₂.live_of_mem hu.1
  have hkept := L.not_removed_of_inner hu
  refine (hv.bodyReads hlive).renamed (fun i hi hnot v hr hav => ?_) (standIn_of_bodyDests hv L)
  rcases hav with hin | hphi
  · have hknown := known_of_available (Func.availableOut_iff.mpr (Or.inl hin))
    rcases (L.relocated hv).innerReads u hu i hi v hr hknown with h | h
    · exact Or.inl h
    · -- the value would be defined in this block, where it is available from outside
      exfalso
      rcases hin with hin | ⟨d, hdom, hd⟩
      · rw [L.standIn_eq hv (b := u) (Or.inr (Or.inr hin))] at h
        exact Func.not_mem_params hv.once h hin
      · by_cases hun : p.unifies v = true
        · have hfirst : p.first.induction ∈ f.destsAt u := by simpa [Snapshot.standIn, hun] using h
          have e := Func.destsAt_unique hv.once hfirst (mem_destsAt.mpr (Or.inl L.induction₁_mem))
          exact L.disjoint L.header₁_mem (e ▸ hu.1)
        · rw [standIn_of_not_unifies (by simpa using hun)] at h
          exact hdom.1 (Func.destsAt_unique hv.once hd h)
  · rw [L.standIn_eq hv (b := u) (Or.inl ⟨hu.2.1, mem_destsAt.mpr (Or.inl hphi)⟩)]
    exact Or.inr (Or.inl (L.mem_phiDests_kept hv hkept hphi))

/-! ## All code -/

/-- **The code of the fused function reads available values.** -/
theorem reads_splice (hc : (p.splice f).Live c) :
    ReadsOk ((p.splice f).AvailableIn c) ((p.splice f).instrsOf c) := by
  have hR := L.relocated hv
  have hkept := L.kept_of_live hc
  have hown : ReadsOk (p.Seen f c (p.guards.elim [] fun _ => [p.first.exit])) (p.bodyPart f c) := by
    by_cases hin : p.Inner l₂ c
    · exact (L.reads_inner hv hin).mono fun v => Plan.Seen.mono (by simp)
    · exact L.reads_kept hv (L.live_of_splice hc) hin hkept
  have hpieces : p.PiecesOk f c [] ((p.guards.elim [] fun _ => [p.first.exit]) ++ c :: p.glue ++
      [p.second.preheader, p.second.header] ++ if p.second.latch = p.second.header then [] else [p.second.latch]) := by
    rw [Plan.piecesOk_append, Plan.piecesOk_append, Plan.piecesOk_append]
    refine ⟨⟨⟨?_, ⟨fun _ => hown.mono fun v => Plan.Seen.mono (by simp), ?_⟩⟩,
      ⟨fun h => ?_, ⟨fun h => ?_, trivial⟩⟩⟩, ?_⟩
    · cases hg : p.guards with
      | none => trivial
      | some g =>
        refine ⟨fun h => ?_, trivial⟩
        rw [L.bodyHome_exit₁ hg] at h
        exact h ▸ L.reads_exit₁ hv hg
    · unfold Plan.glue
      cases hg : p.guards with
      | none => trivial
      | some g =>
        refine ⟨fun h => ?_, trivial⟩
        rw [L.bodyHome_guard₂ hg] at h
        exact h ▸ (hR.guard₂ g hg).mono fun v => Plan.Seen.mono (by simp)
    · rw [L.bodyHome_preheader₂] at h
      exact h ▸ hR.preheader₂.mono fun v => Plan.Seen.mono (by simp +contextual)
    · rw [bodyHome_header₂] at h
      exact h ▸ hR.header₂.mono fun v => Plan.Seen.mono (by simp +contextual)
    · split
      · trivial
      · rename_i hne
        refine ⟨fun h => ?_, trivial⟩
        rw [L.bodyHome_latch₂] at h
        exact h ▸ (hR.latch₂ hne).mono fun v => Plan.Seen.mono (by simp +contextual)
  rw [← Func.phisAt_append_bodyAt, ReadsOk.append]
  refine ⟨ReadsOk.of_phis fun i => Func.isPhi_of_mem_phisAt _, ?_⟩
  rw [L.bodyAt_splice hv]
  refine (Plan.readsOk_of_pieces hpieces).mono fun v h => ?_
  rcases h with h | h | ⟨_, h, _⟩
  · exact Or.inl h
  · exact Or.inr h
  · cases h

/-- **The terminators of the fused function read available values.** -/
theorem termReads_splice (hc : (p.splice f).Live c) {t : Terminator} (ht : (p.splice f).term? c = some t) :
    ∀ v ∈ valuesOf t.operands, (p.splice f).AvailableOut c v := by
  rw [term?_splice] at ht
  obtain ⟨t, hold, rfl⟩ := Option.map_eq_some_iff.mp ht
  have hlive := L.live_of_splice hc
  intro w hw
  rw [Plan.operands_redirected, Plan.operands_renamedTerm, Plan.valuesOf_standIn] at hw
  obtain ⟨v, hr, rfl⟩ := List.mem_map.mp hw
  have hav := hv.termReads c hlive t hold v hr
  by_cases hin : p.Inner l₂ c
  · exact (L.relocated hv).innerTerm c hin t hold v hr (known_of_available hav)
  · exact L.availableOut_of_kept hv hin (L.kept_of_live hc) hav fun g hg hphi =>
      (L.guardPhi_spec hg hphi hlive).2 t hold hr

end Valid

end Layout

end SsaFusion
