import SsaFusion.Proofs.Data.Table
import SsaFusion.Proofs.Fusion.Homes

/-!
# Code at its new place

A plan is only made if the code that moves reads values that are available at its new place. Here is what these checks
give for the fused function: moved code reads what its new block has (`Seen`), the kept phis of the second header read
what the first preheader and the first latch have, and the second body reads what the end of the first body has.
-/

namespace SsaFusion

open Plan (phiDests bodyDests)

/-! ## Reads of renamed code -/

namespace ReadsOk

variable {avail avail' : ValueId → Prop} {is : List Instr} {p : Plan}

/-- What code reads is available or defined by earlier code. -/
theorem known (h : ReadsOk avail is) {i : Instr} (hi : i ∈ is) (hphi : i.isPhi = false) {v : ValueId} (hv : v ∈ i.reads) :
    avail v ∨ v ∈ is.filterMap Instr.dest? := by
  obtain ⟨n, hn⟩ := List.getElem?_of_mem hi
  refine (iff_index.mp h n i hn hphi v hv).imp_right ?_
  rintro ⟨m, _, j, hj, hd⟩
  exact List.mem_filterMap.mpr ⟨j, List.mem_of_getElem? hj, hd⟩

/-- Renamed code reads what stands for the old values. -/
theorem renamed (h : ReadsOk avail is)
    (hread : ∀ i ∈ is, i.isPhi = false → ∀ v ∈ i.reads, avail v → avail' (Snapshot.standIn p v))
    (hdest : ∀ v ∈ is.filterMap Instr.dest?, Snapshot.standIn p v = v) : ReadsOk avail' (is.map p.renamed) := by
  induction is generalizing avail avail' with
  | nil => trivial
  | cons i rest ih =>
    refine ⟨fun hphi w hw => ?_, ih h.2 (fun j hj hphi v hv hav => ?_) fun v hv => hdest v ?_⟩
    · rw [p.isPhi_renamed] at hphi
      rw [p.reads_renamed] at hw
      obtain ⟨v, hv, rfl⟩ := List.mem_map.mp hw
      exact hread i (List.mem_cons_self ..) hphi v hv (h.1 hphi v hv)
    · refine hav.imp (hread j (List.mem_cons_of_mem _ hj) hphi v hv) fun hd => ?_
      rw [p.dest?_renamed, hd, hdest v (List.mem_filterMap.mpr ⟨i, List.mem_cons_self .., hd⟩)]
    · obtain ⟨j, hj, hd⟩ := List.mem_filterMap.mp hv
      exact List.mem_filterMap.mpr ⟨j, List.mem_cons_of_mem _ hj, hd⟩

end ReadsOk

namespace Func.Valid

variable {f : Func} {b : BlockId} (hv : f.Valid)

include hv

/-- The code of a live block reads what is available at its start or defined by its phis. -/
theorem bodyReads (hb : f.Live b) : ReadsOk (fun v => f.AvailableIn b v ∨ v ∈ phiDests f b) (f.bodyAt b) := by
  have h := hv.reads b hb
  rw [← Func.phisAt_append_bodyAt, ReadsOk.append] at h
  exact h.2

end Func.Valid

/-! ## The checks -/

namespace Snapshot

variable {s : Snapshot} {p : Plan} {first second : Loop} {homes homes' : Homes} {x b : BlockId} {v : ValueId}

/-- A check that ends well was made of something true. -/
theorem of_ite_eq_ok {c : Prop} [Decidable c] {why : Obstacle} (h : (if c then .ok () else .error why) = Except.ok ()) :
    c := by
  by_contra hc
  rw [if_neg hc] at h
  cases h

theorem checkAll_spec {check : ValueId → Except Obstacle Unit} {vs : List ValueId} (h : checkAll check vs = .ok ()) :
    ∀ v ∈ vs, check v = .ok () := by
  induction vs with
  | nil => simp
  | cons a rest ih =>
    obtain ⟨_, ha, h⟩ := bind_eq_ok h
    rintro v hv
    rcases List.mem_cons.mp hv with rfl | hv
    · exact ha
    · exact ih h v hv

theorem checkPhis_spec {sources : List (BlockId × Operand)} (h : s.checkPhis p second homes sources = .ok ()) :
    ∀ q ∈ sources, ∀ v, q.2.var? = some v → s.require p second homes (sourceHome p q.1) v = .ok () := by
  induction sources with
  | nil => simp
  | cons q rest ih =>
    obtain ⟨b, o⟩ := q
    unfold checkPhis at h
    intro q hq v hv
    split at h
    · rename_i u hu
      obtain ⟨_, hu', h⟩ := bind_eq_ok h
      rcases List.mem_cons.mp hq with rfl | hq
      · cases hu.symm.trans hv
        exact hu'
      · exact ih h q hq v hv
    · rename_i hu
      rcases List.mem_cons.mp hq with rfl | hq
      · exact absurd hv (hu v)
      · exact ih h q hq v hv

theorem checkInnerPhi_spec {sources : List (BlockId × Operand)}
    (h : s.checkInnerPhi p second first homes sources = .ok ()) :
    ∀ q ∈ sources, ∀ v, q.2.var? = some v → s.requireInside p second first homes q.1 v = .ok () := by
  induction sources with
  | nil => simp
  | cons q rest ih =>
    obtain ⟨b, o⟩ := q
    unfold checkInnerPhi at h
    intro q hq v hv
    split at h
    · rename_i u hu
      obtain ⟨_, hu', h⟩ := bind_eq_ok h
      rcases List.mem_cons.mp hq with rfl | hq
      · cases hu.symm.trans hv
        exact hu'
      · exact ih h q hq v hv
    · rename_i hu
      rcases List.mem_cons.mp hq with rfl | hq
      · exact absurd hv (hu v)
      · exact ih h q hq v hv

theorem checkInner_spec {is : List Instr} (h : s.checkInner p second first homes b is = .ok ()) :
    ∀ i ∈ is, (∀ sources, i.sources? = some sources → ∀ q ∈ sources, ∀ v, q.2.var? = some v →
        s.requireInside p second first homes q.1 v = .ok ()) ∧
      (i.isPhi = false → ∀ v ∈ i.reads, s.requireInside p second first homes b v = .ok ()) := by
  induction is with
  | nil => simp
  | cons i rest ih =>
    unfold checkInner at h
    intro j hj
    split at h
    · rename_i sources hs
      obtain ⟨_, hi, h⟩ := bind_eq_ok h
      rcases List.mem_cons.mp hj with rfl | hj
      · refine ⟨fun sources' hs' => ?_, fun hphi => ?_⟩
        · cases hs.symm.trans hs'
          exact checkInnerPhi_spec hi
        · rw [j.sources?_eq_none hphi] at hs
          cases hs
      · exact ih h j hj
    · rename_i hs
      obtain ⟨_, hi, h⟩ := bind_eq_ok h
      rcases List.mem_cons.mp hj with rfl | hj
      · refine ⟨fun sources' hs' => absurd (hs.symm.trans hs') (by simp), fun _ v hv => ?_⟩
        exact checkAll_spec hi v (mem_distinct.mpr hv)
      · exact ih h j hj

theorem checkBody_spec {bs : List BlockId} (h : s.checkBody p second first homes bs = .ok ()) :
    ∀ b ∈ bs, ∀ blk, s.func.block? b = some blk → s.checkInner p second first homes b blk.instrs = .ok () ∧
      ∀ v ∈ valuesOf blk.term.operands, s.requireInside p second first homes b v = .ok () := by
  induction bs with
  | nil => simp
  | cons c rest ih =>
    unfold checkBody at h
    intro b hb blk hblk
    split at h
    · rename_i blk' hblk'
      obtain ⟨_, hi, h⟩ := bind_eq_ok h
      obtain ⟨_, ht, h⟩ := bind_eq_ok h
      rcases List.mem_cons.mp hb with rfl | hb
      · cases hblk.symm.trans hblk'
        exact ⟨hi, fun v hv => checkAll_spec ht v (mem_distinct.mpr hv)⟩
      · exact ih h b hb blk hblk
    · rename_i hnone
      rcases List.mem_cons.mp hb with rfl | hb
      · exact absurd hblk (hnone blk)
      · exact ih h b hb blk hblk

end Snapshot

/-! ## Availability after fusion -/

namespace Plan

variable (p : Plan) (f : Func)

/-- A block whose code moves in front of or into the first loop. -/
def Moved (p : Plan) (a : BlockId) : Prop :=
  a = p.second.preheader ∨ a = p.second.header ∨ a = p.second.latch ∨ ∃ g, p.guards = some g ∧ a = g.second

/-- A table of homes binds values of the given blocks, and kept phis of the second header, to their new homes. -/
def Placed (as : List BlockId) (homes : Snapshot.Homes) : Prop :=
  ∀ v y, homes.get? v = some y → (∃ a ∈ as, v ∈ bodyDests f a ∧ y = p.bodyHome a) ∨
    v ∈ phiDests f p.second.header ∧ p.unifies v = false ∧ y = p.first.header

/-- The second guard, if there is one. -/
def glue (p : Plan) : List BlockId := p.guards.elim [] fun g => [g.second]

/-- A value can be read in a block behind its phis and the code that it has from the given blocks. -/
def Seen (x : BlockId) (as : List BlockId) (v : ValueId) : Prop :=
  (p.splice f).AvailableIn x v ∨ v ∈ phiDests (p.splice f) x ∨ ∃ a ∈ as, x = p.bodyHome a ∧ v ∈ bodyDests f a

end Plan

namespace Layout

variable {f : Func} {l₁ l₂ : Loop} {p : Plan} {a b d x : BlockId} {v : ValueId} {as : List BlockId}
  {homes homes' : Snapshot.Homes} (L : Layout f l₁ l₂ p) (hv : f.Valid)

include L

theorem live_early (hx : p.Early l₁ x) : f.Live x := by
  rcases hx with h | rfl | ⟨g, hg, rfl⟩
  · exact L.loop₁.live_of_mem h
  · exact L.shape₁.live_preheader L.loop₁
  · exact L.live_guard₁ hg

theorem early_bodyHome (ha : p.Moved a) : p.Early l₁ (p.bodyHome a) := by
  rcases ha with rfl | rfl | rfl | ⟨g, hg, rfl⟩
  · rw [L.bodyHome_preheader₂]
    exact Or.inr (Or.inl rfl)
  · rw [bodyHome_header₂]
    rcases headerHome_eq (p := p) with h | h <;> rw [h]
    · exact Or.inl L.header₁_mem
    · exact Or.inl L.latch₁_mem
  · rw [L.bodyHome_latch₂]
    exact Or.inl L.latch₁_mem
  · rw [L.bodyHome_guard₂ hg]
    exact Or.inr (Or.inr ⟨g, hg, rfl⟩)

omit L in
theorem inner_of_staysInside (h : Snapshot.staysInside p l₂ b = true) : p.Inner l₂ b := by
  simpa [Snapshot.staysInside, Plan.Inner, Loop.contains, and_assoc] using h

theorem live_moved (ha : p.Moved a) : f.Live a := by
  refine L.live_of_late (Or.inl ?_)
  rcases ha with h | h | h | h
  · exact Or.inr (Or.inr (Or.inl h))
  · exact Or.inl h
  · exact Or.inr (Or.inl h)
  · exact Or.inr (Or.inr (Or.inr (Or.inr h)))

include hv

theorem available_param (h : v ∈ f.params) : (p.splice f).AvailableIn x (Snapshot.standIn p v) := by
  rw [L.standIn_eq hv (b := x) (Or.inr (Or.inr h)), Func.AvailableIn, params_splice]
  exact Or.inl h

/-- Tables of homes are right about the fused function. -/
theorem Placed.sited (hp : p.Placed f as homes) (has : ∀ a ∈ as, p.Moved a) {y : BlockId} (h : homes.get? v = some y) :
    v ∈ (p.splice f).destsAt y ∧ p.Early l₁ y := by
  rcases hp v y h with ⟨a, ha, hd, rfl⟩ | ⟨hd, hu, rfl⟩
  · exact ⟨(L.mem_destsAt_splice hv).mpr ⟨a, Or.inr ⟨hd, rfl⟩⟩, L.early_bodyHome (has a ha)⟩
  · exact ⟨(L.mem_destsAt_splice hv).mpr ⟨_, Or.inl ⟨hd, hu, phiHome_header₂.symm⟩⟩, Or.inl L.header₁_mem⟩

omit L in
theorem homeOf_spec {o : Option BlockId} (h : (Snapshot.of f).homeOf homes v = o) :
    (∀ y, o = some y → homes.get? v = some y ∨ v ∈ f.destsAt y) ∧ (o = none → v ∉ f.dests) := by
  unfold Snapshot.homeOf at h
  split at h
  · rename_i y hy
    subst h
    exact ⟨fun z hz => Or.inl (hz ▸ hy), fun h => by cases h⟩
  · subst h
    refine ⟨fun y hy => Or.inr ((Func.definingBlock?_eq_some_iff hv.once).mp hy), fun hnone hd => ?_⟩
    obtain ⟨b, hb⟩ := Func.mem_dests.mp hd
    have := (Func.definingBlock?_eq_some_iff hv.once).mpr hb
    exact absurd (this.symm.trans hnone) (by simp)

section Tables

variable (hp : p.Placed f as homes) (has : ∀ a ∈ as, p.Moved a)

include hp has

/-- What the check at the end of an early block asks for. -/
theorem require_spec (hx : p.Early l₁ x) (hknown : v ∈ f.params ∨ v ∈ f.dests)
    (h : (Snapshot.of f).require p l₂ homes x v = .ok ()) :
    (p.splice f).AvailableIn x (Snapshot.standIn p v) ∨ homes.get? (Snapshot.standIn p v) = some x ∨
      Snapshot.standIn p v ∈ f.destsAt x := by
  have hlive := L.live_early hx
  unfold Snapshot.require at h
  simp only at h
  split at h
  · rename_i hnone
    have hout := (homeOf_spec hv hnone).2 rfl
    rcases hknown with hparam | hd
    · exact Or.inl (L.available_param hv hparam)
    · exact absurd (L.mem_dests_standIn hd) hout
  · rename_i y hy
    have hsite := (homeOf_spec hv hy).1 y rfl
    have hc := Snapshot.of_ite_eq_ok h
    simp only [Bool.or_eq_true, Bool.and_eq_true, beq_iff_eq] at hc
    rcases hc with (rfl | hdom) | ⟨⟨⟨rfl, _⟩, hstay⟩, hdom⟩
    · exact Or.inr hsite
    · simp only [DomTree.strictlyDominates, Bool.and_eq_true, bne_iff_ne] at hdom
      have hold : f.Dominates y x := (Func.dominators_dominates_of_live hlive).mp hdom.2
      have hlate : ¬p.Late l₂ y := fun h => L.not_dominates_early h hx hold
      have hkept : ¬p.Removed y := fun h => hlate (Or.inl h)
      refine Or.inl (Or.inr ⟨y, ⟨hdom.1, L.dominates_kept hkept hold fun h => L.not_late_of_early hx (Or.inr h)⟩, ?_⟩)
      exact hsite.elim (fun h => (Placed.sited L hv hp has h).1) (L.mem_destsAt_kept hv hkept (L.unifies_standIn hv v))
    · have hin := inner_of_staysInside hstay
      obtain ⟨first, last, hbody⟩ := L.body_of_inner hin
      have hlast : f.Dominates y p.second.latch :=
        (Func.dominators_dominates_of_live (L.shape₂.live_latch L.loop₂)).mp hdom
      refine Or.inl (Or.inr ⟨y, ⟨fun e => L.disjoint L.latch₁_mem (e ▸ hin.1),
        L.dominates_latch_of_inner hin hlast hbody⟩, ?_⟩)
      rcases hsite with h | h
      · exact absurd (Or.inr hin) (L.not_late_of_early (Placed.sited L hv hp has h).2)
      · exact L.mem_destsAt_kept hv (L.not_removed_of_inner hin) (L.unifies_standIn hv v) h

/-- What is checked at the end of an early block is available there. -/
theorem availableOut_of_require (hx : p.Early l₁ x) (hknown : v ∈ f.params ∨ v ∈ f.dests)
    (h : (Snapshot.of f).require p l₂ homes x v = .ok ()) : (p.splice f).AvailableOut x (Snapshot.standIn p v) := by
  rw [Func.availableOut_iff]
  refine (L.require_spec hv hp has hx hknown h).imp_right ?_
  rintro (h | h)
  · exact (Placed.sited L hv hp has h).1
  · exact L.mem_destsAt_kept hv (L.kept_of_early hx) (L.unifies_standIn hv v) h

/-- What the check inside the second body asks for. -/
theorem requireInside_spec (hb : p.Inner l₂ b) (hknown : v ∈ f.params ∨ v ∈ f.dests)
    (h : (Snapshot.of f).requireInside p l₂ l₁ homes b v = .ok ()) :
    (p.splice f).AvailableIn b (Snapshot.standIn p v) ∨ Snapshot.standIn p v ∈ f.destsAt b := by
  obtain ⟨first, last, hbody⟩ := L.body_of_inner hb
  have hne := (L.latch_ne_header hbody).1
  have hlast := (L.shape₁.last_spec L.loop₁ hne).1
  unfold Snapshot.requireInside at h
  simp only at h
  split at h
  · rename_i hnone
    have hout := (homeOf_spec hv hnone).2 rfl
    rcases hknown with hparam | hd
    · exact Or.inl (L.available_param hv hparam)
    · exact absurd (L.mem_dests_standIn hd) hout
  · rename_i y hy
    have hsite := (homeOf_spec hv hy).1 y rfl
    have hdest : ¬p.Removed y → Snapshot.standIn p v ∈ (p.splice f).destsAt y := fun hkept =>
      hsite.elim (fun h => (Placed.sited L hv hp has h).1) (L.mem_destsAt_kept hv hkept (L.unifies_standIn hv v))
    -- a home outside the second body dominates the end of the first
    have outside : ¬p.Removed y → y ≠ b → f.Dominates y p.first.last →
        (p.splice f).AvailableIn b (Snapshot.standIn p v) := fun hkept hyb hdom =>
      Or.inr ⟨y, ⟨hyb, L.dominates_inner_of_last hkept hdom hb⟩, hdest hkept⟩
    have hc := Snapshot.of_ite_eq_ok h
    split at hc
    · rename_i hstay
      have hin := inner_of_staysInside hstay
      have hold : f.Dominates y b := (Func.dominators_dominates_of_live (L.loop₂.live_of_mem hb.1)).mp hc
      rcases hsite with h | h
      · exact absurd (Or.inr hin) (L.not_late_of_early (Placed.sited L hv hp has h).2)
      · by_cases e : y = b
        · exact Or.inr (e ▸ h)
        · exact Or.inl (Or.inr ⟨y, ⟨e, L.dominates_inner hin hold hb⟩, hdest (L.not_removed_of_inner hin)⟩)
    · split at hc
      · rename_i hmem
        have hmem : y ∈ l₁.blocks := by simpa [Loop.contains] using hmem
        simp only [Bool.and_eq_true] at hc
        exact Or.inl (outside (L.kept_of_mem₁ hmem) (fun e => L.disjoint hmem (e ▸ hb.1))
          ((Func.dominators_dominates_of_live (L.loop₁.live_of_mem hlast)).mp hc.2))
      · have hhead : f.Dominates y p.first.header :=
          (Func.dominators_dominates_of_live (L.shape₁.live_header L.loop₁)).mp hc
        have hlate : ¬p.Late l₂ y := fun h => L.not_dominates_early h (Or.inl L.header₁_mem) hhead
        exact Or.inl (outside (fun h => hlate (Or.inl h)) (fun e => hlate (Or.inr (e ▸ hb)))
          (hhead.trans (L.shape₁.header_dominates L.loop₁ hlast)))

end Tables

/-! ## Moved code -/

omit L in
/-- What the code of a live block reads is defined somewhere. -/
theorem known_of_read (ha : f.Live a) {i : Instr} (hi : i ∈ f.bodyAt a) (h : v ∈ i.reads) :
    v ∈ f.params ∨ v ∈ f.dests := by
  have hat : ∀ {d}, v ∈ f.destsAt d → v ∈ f.params ∨ v ∈ f.dests := fun h => Or.inr (Func.mem_dests.mpr ⟨_, h⟩)
  rcases (hv.bodyReads ha).known hi (hv.phisFirst a i hi) h with ((h | ⟨d, _, h⟩) | h) | h
  · exact Or.inl h
  · exact hat h
  · exact hat (mem_destsAt.mpr (Or.inl h))
  · exact hat (mem_destsAt.mpr (Or.inr h))

omit L hv in
theorem Placed.mono {as' : List BlockId} (hp : p.Placed f as homes) (h : ∀ a ∈ as, a ∈ as') : p.Placed f as' homes :=
  fun v y hy => (hp v y hy).imp_left fun ⟨a, ha, hrest⟩ => ⟨a, h a ha, hrest⟩

/-- Checked code reads what is at hand behind the code that was moved before. -/
theorem place_reads (ha : p.Moved a) {is : List Instr} (his : ∀ i ∈ is, i ∈ f.bodyAt a) (has : ∀ a ∈ as, p.Moved a)
    (ham : a ∈ as) (hp : p.Placed f as homes)
    (h : (Snapshot.of f).place p l₂ (p.bodyHome a) homes is = .ok homes') :
    ReadsOk (fun w => (p.splice f).AvailableIn (p.bodyHome a) w ∨ homes.get? w = some (p.bodyHome a) ∨
      w ∈ f.destsAt (p.bodyHome a)) (is.map p.renamed) ∧ p.Placed f as homes' := by
  induction is generalizing homes with
  | nil =>
    cases h
    exact ⟨trivial, hp⟩
  | cons i rest ih =>
    obtain ⟨_, hcheck, h⟩ := bind_eq_ok h
    have hi := his i (List.mem_cons_self ..)
    have hrest : ∀ j ∈ rest, j ∈ f.bodyAt a := fun j hj => his j (List.mem_cons_of_mem _ hj)
    have hread : ∀ w ∈ (p.renamed i).reads, (p.splice f).AvailableIn (p.bodyHome a) w ∨
        homes.get? w = some (p.bodyHome a) ∨ w ∈ f.destsAt (p.bodyHome a) := by
      intro w hw
      rw [p.reads_renamed] at hw
      obtain ⟨v, hr, rfl⟩ := List.mem_map.mp hw
      exact L.require_spec hv hp has (L.early_bodyHome ha) (known_of_read hv (L.live_moved ha) hi hr)
        (Snapshot.checkAll_spec hcheck v (mem_distinct.mpr hr))
    cases hd : i.dest? with
    | none =>
      rw [hd] at h
      obtain ⟨hreads, hplaced⟩ := ih hrest hp h
      exact ⟨⟨fun _ => hread, hreads.mono fun w => Or.inl⟩, hplaced⟩
    | some d =>
      rw [hd] at h
      have hp' : p.Placed f as (homes.insert d (p.bodyHome a)) := by
        intro v y hy
        rw [Table.get?_insert] at hy
        split at hy
        · rename_i e
          cases hy
          exact Or.inl ⟨a, ham, List.mem_filterMap.mpr ⟨i, hi, e ▸ hd⟩, rfl⟩
        · exact hp v y hy
      obtain ⟨hreads, hplaced⟩ := ih hrest hp' h
      refine ⟨⟨fun _ => hread, hreads.mono fun w hw => ?_⟩, hplaced⟩
      rw [Table.get?_insert, p.dest?_renamed, hd] at *
      by_cases e : d = w
      · exact Or.inr (congrArg some e)
      · rw [if_neg e] at hw
        exact Or.inl hw

/-- **Code that moves to an early block reads what that block has.** -/
theorem place_spec (ha : p.Moved a) (has : ∀ a ∈ as, p.Moved a) (hp : p.Placed f as homes)
    (h : (Snapshot.of f).place p l₂ (p.bodyHome a) homes (f.bodyAt a) = .ok homes') :
    ReadsOk (p.Seen f (p.bodyHome a) (p.bodyHome a :: as)) (p.bodyPart f a) ∧ p.Placed f (a :: as) homes' := by
  have hearly := L.early_bodyHome ha
  have hkept := L.kept_of_early hearly
  obtain ⟨hreads, hplaced⟩ := L.place_reads hv ha (fun _ hi => hi)
    (fun b hb => (List.mem_cons.mp hb).elim (fun e => e ▸ ha) (has b)) (List.mem_cons_self ..)
    (Placed.mono hp fun b hb => List.mem_cons_of_mem _ hb) h
  refine ⟨hreads.mono fun w hw => ?_, hplaced⟩
  rcases hw with hw | hw | hw
  · exact Or.inl hw
  · rcases hp w _ hw with ⟨b, hb, hd, e⟩ | ⟨hd, hu, e⟩
    · exact Or.inr (Or.inr ⟨b, List.mem_cons_of_mem _ hb, e, hd⟩)
    · exact Or.inr (Or.inl ((L.mem_phiDests_splice hv).mpr ⟨_, hd, hu, e.trans phiHome_header₂.symm⟩))
  · rcases mem_destsAt.mp hw with hw | hw
    · exact Or.inr (Or.inl (L.mem_phiDests_kept hv hkept hw))
    · exact Or.inr (Or.inr ⟨_, List.mem_cons_self .., (bodyHome_kept hkept).symm, hw⟩)

omit L hv in
theorem placed_empty : p.Placed f [] {} := fun v y h => by cases h

omit L hv in
theorem Placed.insertPhis (hp : p.Placed f as homes) : p.Placed f as
    (homes.insertAll ((((Snapshot.of f).keptPhis p).filterMap Instr.dest?).map (·, p.first.header))) := by
  intro v y hy
  rcases Table.mem_or_get?_of_insertAll hy with h | h
  · obtain ⟨w, hw, e⟩ := List.mem_map.mp h
    cases e
    obtain ⟨i, hi, hd⟩ := List.mem_filterMap.mp hw
    obtain ⟨hi, hstay⟩ := List.mem_filter.mp hi
    refine Or.inr ⟨List.mem_filterMap.mpr ⟨i, hi, hd⟩, ?_, rfl⟩
    simpa [hd] using hstay
  · exact hp v y h

omit L hv in
theorem moved_glue : ∀ a ∈ p.glue, p.Moved a := by
  intro a ha
  unfold Plan.glue at ha
  cases hg : p.guards with
  | none => simp [hg] at ha
  | some g =>
    obtain rfl : a = g.second := by simpa [hg] using ha
    exact Or.inr (Or.inr (Or.inr ⟨g, hg, rfl⟩))

/-- The blocks whose code moves, in the order in which it does. -/
theorem checkAvailability_spec : ∃ homes, p.Placed f (p.second.latch :: p.second.header :: p.second.preheader :: p.glue) homes ∧
    (∀ g, p.guards = some g → ReadsOk (p.Seen f g.first [g.first]) (p.bodyPart f g.second)) ∧
    ReadsOk (p.Seen f p.first.preheader (p.first.preheader :: p.glue)) (p.bodyPart f p.second.preheader) ∧
    ReadsOk (p.Seen f p.headerHome (p.headerHome :: p.second.preheader :: p.glue)) (p.bodyPart f p.second.header) ∧
    (p.second.latch ≠ p.second.header → ReadsOk (p.Seen f p.first.latch (p.first.latch :: p.second.header :: p.second.preheader :: p.glue))
      (p.bodyPart f p.second.latch)) ∧
    (Snapshot.of f).checkPhis p l₂ homes (((Snapshot.of f).keptPhis p).flatMap fun i => i.sources?.getD []) = .ok () ∧
    (p.second.body.isSome → (Snapshot.of f).checkBody p l₂ l₁ homes
      (ascending (l₂.blocks.filter fun b => b != p.second.header && b != p.second.latch)) = .ok ()) := by
  have h := L.plan.available
  unfold Snapshot.checkAvailability at h
  simp only at h
  generalize hk : (fun homes => (Snapshot.of f).place p l₂ p.first.preheader homes _ >>= _) = k at h
  obtain ⟨h₁, hp₁, hguard, h⟩ : ∃ h₁, p.Placed f p.glue h₁ ∧
      (∀ g, p.guards = some g → ReadsOk (p.Seen f g.first [g.first]) (p.bodyPart f g.second)) ∧ k h₁ = .ok () := by
    unfold Plan.glue
    cases hg : p.guards with
    | none =>
      simp only [hg] at h
      exact ⟨{}, placed_empty, nofun, h⟩
    | some g =>
      simp only [hg] at h
      obtain ⟨h₁, hguard, h⟩ := bind_eq_ok h
      rw [← L.bodyHome_guard₂ hg] at hguard
      obtain ⟨hreads, hp⟩ := L.place_spec hv (Or.inr (Or.inr (Or.inr ⟨g, hg, rfl⟩))) (by simp) placed_empty hguard
      refine ⟨h₁, hp, fun g' hg' => ?_, h⟩
      cases hg'
      rwa [L.bodyHome_guard₂ hg] at hreads
  subst hk
  obtain ⟨h₂, hpre, h⟩ := bind_eq_ok h
  obtain ⟨h₃, hhead, h⟩ := bind_eq_ok h
  obtain ⟨h₄, hlatch, h⟩ := else_bind_eq_ok h
  obtain ⟨_, hphis, hbody⟩ := bind_eq_ok h
  rw [← L.bodyHome_preheader₂] at hpre
  obtain ⟨hpreReads, hp₂⟩ := L.place_spec hv (Or.inl rfl) moved_glue hp₁ hpre
  have hcons : ∀ {b bs}, p.Moved b → (∀ a ∈ bs, p.Moved a) → ∀ a ∈ b :: bs, p.Moved a :=
    fun hb hbs a ha => (List.mem_cons.mp ha).elim (fun e => e ▸ hb) (hbs a)
  have hmoved₂ := hcons (Or.inl rfl) moved_glue
  rw [← bodyHome_header₂] at hhead
  obtain ⟨hheadReads, hp₃⟩ := L.place_spec hv (Or.inr (Or.inl rfl)) hmoved₂ (Placed.insertPhis hp₂) hhead
  have hmoved₃ := hcons (Or.inr (Or.inl rfl)) hmoved₂
  rw [L.bodyHome_preheader₂] at hpreReads
  rw [bodyHome_header₂] at hheadReads
  have hinner : p.second.body.isSome → _ := fun h => (if_pos h).symm.trans hbody
  by_cases e : p.second.latch = p.second.header
  · rw [if_neg (not_not.mpr e)] at hlatch
    cases hlatch
    exact ⟨h₃, Placed.mono hp₃ fun a ha => List.mem_cons_of_mem _ ha, hguard, hpreReads, hheadReads,
      fun h => absurd e h, hphis, hinner⟩
  · rw [if_pos e, ← L.bodyHome_latch₂] at hlatch
    obtain ⟨hlatchReads, hp₄⟩ := L.place_spec hv (Or.inr (Or.inr (Or.inl rfl))) hmoved₃ hp₃ hlatch
    rw [L.bodyHome_latch₂] at hlatchReads
    exact ⟨h₄, hp₄, hguard, hpreReads, hheadReads, fun _ => hlatchReads, hphis, hinner⟩

end Layout

/-- **What the availability checks of a plan give for the fused function.** -/
structure Relocated (f : Func) (l₂ : Loop) (p : Plan) : Prop where
  guard₂ : ∀ g, p.guards = some g → ReadsOk (p.Seen f g.first [g.first]) (p.bodyPart f g.second)
  preheader₂ : ReadsOk (p.Seen f p.first.preheader (p.first.preheader :: p.glue)) (p.bodyPart f p.second.preheader)
  header₂ : ReadsOk (p.Seen f p.headerHome (p.headerHome :: p.second.preheader :: p.glue)) (p.bodyPart f p.second.header)
  latch₂ : p.second.latch ≠ p.second.header →
    ReadsOk (p.Seen f p.first.latch (p.first.latch :: p.second.header :: p.second.preheader :: p.glue)) (p.bodyPart f p.second.latch)
  phis : ∀ i ∈ f.phisAt p.second.header, p.stays i = true → ∀ sources, i.sources? = some sources → ∀ s ∈ sources, ∀ v,
    s.2.var? = some v → v ∈ f.params ∨ v ∈ f.dests →
      (p.splice f).AvailableOut (Snapshot.sourceHome p s.1) (Snapshot.standIn p v)
  innerReads : ∀ b, p.Inner l₂ b → ∀ i ∈ f.bodyAt b, ∀ v ∈ i.reads, v ∈ f.params ∨ v ∈ f.dests →
    (p.splice f).AvailableIn b (Snapshot.standIn p v) ∨ Snapshot.standIn p v ∈ f.destsAt b
  innerTerm : ∀ b, p.Inner l₂ b → ∀ t, f.term? b = some t → ∀ v ∈ valuesOf t.operands, v ∈ f.params ∨ v ∈ f.dests →
    (p.splice f).AvailableOut b (Snapshot.standIn p v)
  innerPhis : ∀ b, p.Inner l₂ b → ∀ i ∈ f.phisAt b, ∀ sources, i.sources? = some sources → ∀ s ∈ sources,
    p.Inner l₂ s.1 → ∀ v, s.2.var? = some v → v ∈ f.params ∨ v ∈ f.dests →
      (p.splice f).AvailableOut s.1 (Snapshot.standIn p v)

theorem Layout.relocated {f : Func} {l₁ l₂ : Loop} {p : Plan} (L : Layout f l₁ l₂ p) (hv : f.Valid) :
    Relocated f l₂ p := by
  obtain ⟨homes, hp, hguard, hpre, hhead, hlatch, hphis, hbody⟩ := L.checkAvailability_spec hv
  have has : ∀ a ∈ p.second.latch :: p.second.header :: p.second.preheader :: p.glue, p.Moved a := by
    intro a ha
    simp only [List.mem_cons] at ha
    rcases ha with h | h | h | h
    · exact Or.inr (Or.inr (Or.inl h))
    · exact Or.inr (Or.inl h)
    · exact Or.inl h
    · exact moved_glue a h
  -- the second body is checked block by block
  have hinner : ∀ b, p.Inner l₂ b → ∀ blk, f.block? b = some blk →
      (Snapshot.of f).checkInner p l₂ l₁ homes b blk.instrs = .ok () ∧
        ∀ v ∈ valuesOf blk.term.operands, (Snapshot.of f).requireInside p l₂ l₁ homes b v = .ok () := by
    intro b hb
    obtain ⟨first, last, hsome⟩ := L.body_of_inner hb
    refine Snapshot.checkBody_spec (hbody (by rw [hsome]; rfl)) b ?_
    rw [mem_ascending, List.mem_filter]
    exact ⟨hb.1, by simpa using hb.2⟩
  have hblock : ∀ {b i}, i ∈ f.instrsOf b → ∃ blk, f.block? b = some blk ∧ i ∈ blk.instrs := by
    intro b i hi
    cases hblk : f.block? b with
    | none => simp [Func.instrsOf, hblk] at hi
    | some blk => exact ⟨blk, rfl, Func.instrsOf_eq hblk ▸ hi⟩
  have hout : ∀ {b v}, p.Inner l₂ b → v ∈ f.params ∨ v ∈ f.dests →
      (Snapshot.of f).requireInside p l₂ l₁ homes b v = .ok () →
      (p.splice f).AvailableOut b (Snapshot.standIn p v) := by
    intro b v hb hknown h
    rw [Func.availableOut_iff]
    refine (L.requireInside_spec hv hp has hb hknown h).imp_right fun h => ?_
    exact L.mem_destsAt_kept hv (L.not_removed_of_inner hb) (L.unifies_standIn hv v) h
  refine ⟨hguard, hpre, hhead, hlatch, fun i hi hstay sources hs s hsm v hvar hknown => ?_,
    fun b hb i hi v hr hknown => ?_, fun b hb t ht v hr hknown => ?_, fun b hb i hi sources hs s hsm hin v hvar hknown => ?_⟩
  · refine L.availableOut_of_require hv hp has ?_ hknown (Snapshot.checkPhis_spec hphis s ?_ v hvar)
    · unfold Snapshot.sourceHome
      split
      · exact Or.inr (Or.inl rfl)
      · exact Or.inl L.latch₁_mem
    · exact List.mem_flatMap.mpr ⟨i, List.mem_filter.mpr ⟨hi, hstay⟩, by simpa [hs] using hsm⟩
  · obtain ⟨blk, hblk, hmem⟩ := hblock (Func.mem_instrsOf_of_body hi)
    exact L.requireInside_spec hv hp has hb hknown
      ((Snapshot.checkInner_spec (hinner b hb blk hblk).1 i hmem).2 (hv.phisFirst b i hi) v hr)
  · obtain ⟨blk, hblk, rfl⟩ := Option.map_eq_some_iff.mp ht
    exact hout hb hknown ((hinner b hb blk hblk).2 v hr)
  · obtain ⟨blk, hblk, hmem⟩ := hblock (Func.mem_instrsOf_of_phi hi)
    exact hout hin hknown ((Snapshot.checkInner_spec (hinner b hb blk hblk).1 i hmem).1 sources hs s hsm v hvar)

end SsaFusion
