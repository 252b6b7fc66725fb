import SsaFusion.Proofs.Fusion.Contents

/-!
# Walks through the fused function

Every walk through the fused function follows a walk through the original: an edge that fusion added stands for a detour
through late blocks (`retraced_of_reaches`). So fused code is only reached where the original was live, and a block that
dominates another keeps doing so, with the block that took over its code in its place (`dominates_kept`,
`dominates_moved`).
-/

namespace SsaFusion

/-- What a walk through the fused function to a block says about the original. Blocks of the second body are reached
from the end of the first body, and the first latch behind a whole second body. -/
structure Retraced (f : Func) (l₂ : Loop) (p : Plan) (ok : BlockId → Prop) (b : BlockId) : Prop where
  kept : ¬p.Removed b
  outer : ¬p.Inner l₂ b → Reaches f.successors ok f.entry b
  inner : p.Inner l₂ b → Reaches f.successors ok f.entry p.first.last ∧
    ∃ first last, p.second.body = some (first, last) ∧ Reaches f.successors (fun x => ok x ∧ p.Inner l₂ x) first b
  latch : b = p.first.latch → ∀ first last, p.second.body = some (first, last) →
    Reaches f.successors (fun x => ok x ∧ p.Inner l₂ x) first last

namespace Layout

variable {f : Func} {l₁ l₂ : Loop} {p : Plan} {a b d x : BlockId} (L : Layout f l₁ l₂ p)

include L

/-! ## The blocks that stay -/

theorem not_removed_of_inner (hb : p.Inner l₂ b) : ¬p.Removed b := by
  obtain ⟨hmem, hh, ht⟩ := hb
  rintro (h | h | rfl | rfl | ⟨g, hg, rfl⟩)
  · exact hh h
  · exact ht h
  · exact L.preheader₂_out.2 hmem
  · exact L.exit₁_out.2 hmem
  · exact L.guard₂_out₂ hg hmem

/-! ## The second body -/

section Body

variable {first last : BlockId} (hbody : p.second.body = some (first, last))

include hbody

theorem inner_first : p.Inner l₂ first := by
  obtain ⟨hne, hterm, hlatch, _⟩ := L.shape₂.body first last hbody
  have hstep : first ∈ f.successors p.second.header := by
    rw [mem_successors_of_term hterm]
    exact List.mem_singleton_self first
  refine ⟨?_, ?_, hlatch⟩
  · by_contra hout
    exact hne (L.shape₂.leave L.loop₂ L.header₂_mem hstep hout).1.symm
  · rintro rfl
    rcases L.shape₂.into_header L.loop₂ (L.shape₂.live_header L.loop₂) hstep with h | h
    · exact L.preheader₂_out.2 (h ▸ L.header₂_mem)
    · exact hne h.symm

theorem inner_last : p.Inner l₂ last ∧ p.second.latch ∈ f.successors last := by
  obtain ⟨_, hne, rfl⟩ := L.latch_ne_header hbody
  obtain ⟨hmem, hstep, hlatch⟩ := L.shape₂.last_spec L.loop₂ hne
  refine ⟨⟨hmem, fun e => ?_, hlatch⟩, hstep⟩
  obtain ⟨_, hterm, hfirst, _⟩ := L.shape₂.body first _ hbody
  rw [e, mem_successors_of_term hterm] at hstep
  exact hfirst (List.mem_singleton.mp hstep).symm

/-- Inside the second body, control stays until it gets to the latch. -/
theorem inner_step (ha : p.Inner l₂ a) (hstep : b ∈ f.successors a) :
    p.Inner l₂ b ∨ a = last ∧ b = p.second.latch := by
  obtain ⟨hmem, hh, ht⟩ := ha
  have hb : b ∈ l₂.blocks := by
    by_contra hout
    exact ht (L.shape₂.leave L.loop₂ hmem hstep hout).1
  have hhead : b ≠ p.second.header := by
    rintro rfl
    rcases L.shape₂.into_header L.loop₂ (L.loop₂.live_of_mem hmem) hstep with h | h
    · exact L.preheader₂_out.2 (h ▸ hmem)
    · exact ht h
  by_cases e : b = p.second.latch
  · obtain ⟨_, hne, rfl⟩ := L.latch_ne_header hbody
    exact Or.inr ⟨(L.shape₂.into_latch L.loop₂ hne (L.loop₂.live_of_mem hmem)).mp (e ▸ hstep), e⟩
  · exact Or.inl ⟨hb, hhead, e⟩

/-- The first block of the second body reaches all of it inside. -/
theorem inner_reaches (hb : p.Inner l₂ b) : Reaches f.successors (p.Inner l₂) first b := by
  obtain ⟨hne, hterm, _⟩ := L.shape₂.body first last hbody
  have hr := L.loop₂.reaches_from_header hb.1
  rw [← L.shape₂.header] at hr
  induction hr with
  | refl _ => exact absurd rfl hb.2.1
  | @tail x y hx hstep _ ih =>
    by_cases hin : p.Inner l₂ x
    · exact .tail (ih hin) hstep hb
    · have hx := hx.ok_end
      by_cases hh : x = p.second.header
      · rw [hh, mem_successors_of_term hterm] at hstep
        rw [List.mem_singleton.mp hstep]
        exact .refl (L.inner_first hbody)
      · by_cases ht : x = p.second.latch
        · rcases L.shape₂.mem_successors_latch.mp (ht ▸ hstep) with h | h
          · exact absurd h hb.2.1
          · exact absurd (h ▸ hb.1) (L.shape₂.exit_not_mem L.loop₂)
        · exact absurd ⟨hx, hh, ht⟩ hin

end Body

/-! ## Walks of the fused function -/

/-- The way through the late blocks, from the first exit to the second latch. -/
theorem cross {ok : BlockId → Prop} (hok : ∀ x, p.Removed x → ok x)
    (hin : ∀ first last, p.second.body = some (first, last) →
      Reaches f.successors (fun x => ok x ∧ p.Inner l₂ x) first last) :
    Reaches f.successors ok p.first.exit p.second.latch := by
  have hexit : ok p.first.exit := hok _ (Or.inr (Or.inr (Or.inr (Or.inl rfl))))
  have hpre : ok p.second.preheader := hok _ (Or.inr (Or.inr (Or.inl rfl)))
  have hhead : ok p.second.header := hok _ (Or.inl rfl)
  have hlatch : ok p.second.latch := hok _ (Or.inr (Or.inl rfl))
  have hfront : Reaches f.successors ok p.first.exit p.second.header := by
    refine .tail ?_ (L.mem_successors_preheader₂.mpr rfl) hhead
    cases hg : p.guards with
    | none => rw [(L.unguarded hg).1]; exact .refl hpre
    | some g =>
      have hguard : ok g.second := hok _ (Or.inr (Or.inr (Or.inr (Or.inr ⟨g, hg, rfl⟩))))
      exact .tail (.tail (.refl hexit) ((L.mem_successors_exit₁ hg).mpr rfl) hguard)
        ((L.mem_successors_guard₂ hg).mpr (Or.inl rfl)) hpre
  cases hbody : p.second.body with
  | none =>
    by_cases e : p.second.latch = p.second.header
    · rw [e]; exact hfront
    · refine .tail hfront ?_ hlatch
      rw [mem_successors_of_term (L.shape₂.straight hbody e)]
      exact List.mem_singleton_self _
  | some body =>
    obtain ⟨first, last⟩ := body
    obtain ⟨_, hterm, _⟩ := L.shape₂.body first last hbody
    have hmid := hin first last hbody
    have hstep : first ∈ f.successors p.second.header := by
      rw [mem_successors_of_term hterm]
      exact List.mem_singleton_self _
    exact .tail (hfront.trans (.head hhead hstep (hmid.mono fun _ => And.left))) (L.inner_last hbody).2 hlatch

section Retrace

variable {q o : BlockId → Prop} (hkeep : ∀ x, ¬p.Removed x → q x → o x)
  (hcross : Reaches (p.splice f).successors q f.entry p.first.latch → q p.second.exit →
    ∀ x, p.Removed x → o x)
  (hskip : ∀ g, p.guards = some g → q g.first → q g.join → o g.second)

include hkeep hcross hskip

/-- **A walk through the fused function follows one through the original.** -/
theorem retraced_of_reaches (hb : Reaches (p.splice f).successors q f.entry b) : Retraced f l₂ p o b := by
  have outer : ∀ {y}, ¬p.Late l₂ y → (y = p.first.latch → p.second.body = none) →
      Reaches f.successors o f.entry y → Retraced f l₂ p o y := fun hlate hlatch hr =>
    ⟨fun h => hlate (Or.inl h), fun _ => hr, fun h => absurd (Or.inr h) hlate,
      fun e _ _ hbody => by rw [hlatch e] at hbody; cases hbody⟩
  have keep : ∀ {y}, ¬p.Late l₂ y → q y → o y := fun hlate => hkeep _ fun h => hlate (Or.inl h)
  induction hb with
  | refl hok =>
    have hlate : ¬p.Late l₂ f.entry := fun h => L.late_ne_entry h rfl
    exact outer hlate (fun e => absurd e.symm L.latch₁_ne_entry) (.refl (keep hlate hok))
  | @tail x y hx hstep hok ih =>
    rcases L.mem_successors_splice.mp hstep with ⟨hold, hcut⟩ | hnew
    · by_cases hin : p.Inner l₂ x
      · obtain ⟨hlast, first, last, hbody, hr⟩ := ih.inner hin
        rcases L.inner_step hbody hin hold with hy | ⟨rfl, rfl⟩
        · refine ⟨L.not_removed_of_inner hy, fun h => absurd hy h, fun _ => ⟨hlast, first, last, hbody, ?_⟩, ?_⟩
          · exact .tail hr hold ⟨hkeep _ (L.not_removed_of_inner hy) hok, hy⟩
          · rintro rfl
            exact absurd hy.1 (L.disjoint L.latch₁_mem)
        · exact absurd (Or.inr (Or.inr ⟨first, x, hbody, Or.inr ⟨rfl, rfl⟩⟩)) hcut
      · have hr := ih.outer hin
        have hlive : f.Live x := Func.live_iff_reaches.mpr (hr.mono fun _ _ => trivial)
        have hlate : ¬p.Late l₂ y := by
          intro hy
          rcases L.into_late hy hlive hold with h | h | h
          · exact h.elim ih.kept hin
          · exact hcut (Or.inl h)
          · exact hcut (Or.inr (Or.inl h))
        refine outer hlate ?_ (.tail hr hold (keep hlate hok))
        rintro rfl
        -- the first latch is entered from the second body, if there is one
        cases hbody : p.second.body with
        | none => rfl
        | some body =>
          obtain ⟨hne, _⟩ := L.latch_ne_header hbody
          have h := (L.shape₁.into_latch L.loop₁ hne hlive).mp hold
          exact absurd (Or.inr (Or.inr ⟨body.1, body.2, hbody, Or.inl ⟨h, rfl⟩⟩)) hcut
    · rcases hnew with ⟨rfl, rfl⟩ | ⟨g, hg, rfl, rfl⟩ | ⟨first, last, hbody, ⟨rfl, rfl⟩ | ⟨rfl, rfl⟩⟩
      · have hr := ih.outer fun h => L.disjoint L.latch₁_mem h.1
        have hmid := L.cross (hcross hx hok) (ih.latch rfl)
        have hwalk := hr.trans (.head hr.ok_end (L.shape₁.mem_successors_latch.mpr (Or.inr rfl)) hmid)
        refine outer L.exit₂_not_late (fun e => absurd (e ▸ L.latch₁_mem) L.exit₂_out.1) ?_
        exact .tail hwalk (L.shape₂.mem_successors_latch.mpr (Or.inr rfl)) (keep L.exit₂_not_late hok)
      · have hr := ih.outer fun h => L.guard₁_out₂ hg h.1
        refine outer (L.join_not_late hg) (fun e => absurd (e ▸ L.latch₁_mem) (L.join_out₁ hg)) ?_
        exact .tail (.tail hr ((L.mem_successors_guard₁ hg).mpr (Or.inr rfl)) (hskip g hg hx.ok_end hok))
          ((L.mem_successors_guard₂ hg).mpr (Or.inr rfl)) (keep (L.join_not_late hg) hok)
      · have hy := L.inner_first hbody
        have hlast := L.shape₁.last_spec L.loop₁ (L.latch_ne_header hbody).1
        have hr := ih.outer fun h => L.disjoint hlast.1 h.1
        refine ⟨L.not_removed_of_inner hy, fun h => absurd hy h, fun _ => ⟨hr, y, last, hbody, ?_⟩, ?_⟩
        · exact .refl ⟨hkeep _ (L.not_removed_of_inner hy) hok, hy⟩
        · rintro rfl
          exact absurd hy.1 (L.disjoint L.latch₁_mem)
      · obtain ⟨hr, first', last', hbody', hmid⟩ := ih.inner (L.inner_last hbody).1
        have hlast := L.shape₁.last_spec L.loop₁ (L.latch_ne_header hbody).1
        have hlate := L.not_late_of_mem L.latch₁_mem
        refine ⟨fun h => hlate (Or.inl h), fun _ => .tail hr hlast.2.1 (keep hlate hok), fun h => absurd (Or.inr h) hlate,
          fun _ first'' last'' hbody'' => ?_⟩
        cases hbody.symm.trans hbody'
        cases hbody.symm.trans hbody''
        exact hmid

end Retrace

/-! ## Live blocks -/

theorem retraced_of_live (hb : (p.splice f).Live b) : Retraced f l₂ p (fun _ => True) b :=
  L.retraced_of_reaches (fun _ _ h => h) (fun _ _ _ _ => trivial) (fun _ _ _ _ => trivial)
    (entry_splice ▸ Func.live_iff_reaches.mp hb)

/-- What is live after fusion was live before. -/
theorem live_of_splice (hb : (p.splice f).Live b) : f.Live b := by
  by_cases hin : p.Inner l₂ b
  · exact L.loop₂.live_of_mem hin.1
  · exact Func.live_iff_reaches.mpr ((L.retraced_of_live hb).outer hin)

theorem kept_of_live (hb : (p.splice f).Live b) : ¬p.Removed b := (L.retraced_of_live hb).kept

/-! ## Dominance -/

/-- A walk around a block that stays follows a walk around it. -/
theorem retraced_around (hd : ¬p.Removed d) (hb : Reaches (p.splice f).successors (· ≠ d) (p.splice f).entry b) :
    Retraced f l₂ p (· ≠ d) b := by
  rw [entry_splice] at hb
  refine L.retraced_of_reaches (fun _ _ h => h) (fun _ _ x hx e => hd (e ▸ hx)) (fun g hg _ _ e => hd ?_) hb
  exact e ▸ Or.inr (Or.inr (Or.inr (Or.inr ⟨g, hg, rfl⟩)))

/-- A block that stays dominates as before, outside the second body. -/
theorem dominates_kept (hd : ¬p.Removed d) (hdom : f.Dominates d b) (hb : ¬p.Inner l₂ b) :
    (p.splice f).Dominates d b := by
  rw [Func.dominates_iff_doms] at hdom ⊢
  exact fun h => hdom ((L.retraced_around hd h).outer hb)

/-- What dominates the end of the first body dominates the second. -/
theorem dominates_inner_of_last (hd : ¬p.Removed d) (hdom : f.Dominates d p.first.last) (hb : p.Inner l₂ b) :
    (p.splice f).Dominates d b := by
  rw [Func.dominates_iff_doms] at hdom ⊢
  exact fun h => hdom ((L.retraced_around hd h).inner hb).1

/-- Before the second body, control can get to the second header around it. -/
theorem reaches_around_inner (hd : p.Inner l₂ d) : Reaches f.successors (· ≠ d) f.entry p.second.header := by
  by_contra h
  have hdom := Func.dominates_iff_doms.mpr h
  have hback := L.shape₂.header_dominates L.loop₂ hd.1
  exact hd.2.1 (hdom.antisymm hback (L.loop₂.live_of_mem hd.1))

/-- A walk inside the second body around one of its blocks is a walk of the original around it. -/
theorem reaches_of_inner {first last : BlockId} (hbody : p.second.body = some (first, last)) (hd : p.Inner l₂ d)
    (hr : Reaches f.successors (fun x => x ≠ d ∧ p.Inner l₂ x) first b) :
    Reaches f.successors (· ≠ d) f.entry b := by
  obtain ⟨_, hterm, _⟩ := L.shape₂.body first last hbody
  have hstep : first ∈ f.successors p.second.header := by
    rw [mem_successors_of_term hterm]
    exact List.mem_singleton_self _
  exact (L.reaches_around_inner hd).trans (.head (Ne.symm hd.2.1) hstep (hr.mono fun _ => And.left))

/-- Inside the second body, dominance is as before. -/
theorem dominates_inner (hd : p.Inner l₂ d) (hdom : f.Dominates d b) (hb : p.Inner l₂ b) :
    (p.splice f).Dominates d b := by
  rw [Func.dominates_iff_doms] at hdom ⊢
  intro h
  obtain ⟨_, first, last, hbody, hr⟩ := (L.retraced_around (L.not_removed_of_inner hd) h).inner hb
  exact hdom (L.reaches_of_inner hbody hd hr)

/-- What dominates the second latch inside the second body comes to dominate the first. -/
theorem dominates_latch_of_inner (hd : p.Inner l₂ d) (hdom : f.Dominates d p.second.latch)
    {first last : BlockId} (hbody : p.second.body = some (first, last)) :
    (p.splice f).Dominates d p.first.latch := by
  rw [Func.dominates_iff_doms] at hdom ⊢
  intro h
  have hr := (L.retraced_around (L.not_removed_of_inner hd) h).latch rfl first last hbody
  exact hdom (.tail (L.reaches_of_inner hbody hd hr) (L.inner_last hbody).2 (Ne.symm hd.2.2))

/-- A block that takes over the code of a removed one dominates what that one did. -/
theorem dominates_moved (hd : p.Removed d) (hcross : (p.splice f).Dominates x p.first.latch ∨ x = p.second.exit)
    (hskip : ∀ g, p.guards = some g → d = g.second → x = g.first ∨ x = g.join) (hdom : f.Dominates d b)
    (hb : ¬p.Inner l₂ b) : (p.splice f).Dominates x b := by
  rw [Func.dominates_iff_doms] at hdom ⊢
  intro h
  rw [entry_splice] at h
  refine hdom ((L.retraced_of_reaches (o := (· ≠ d)) (fun y hy _ e => hy (e ▸ hd)) ?_ ?_ h).outer hb)
  · intro hlatch hexit
    rcases hcross with hx | hx
    · rw [Func.dominates_iff_doms, entry_splice] at hx
      exact absurd hlatch hx
    · exact absurd hx.symm hexit
  · intro g hg hfirst hjoin e
    rcases hskip g hg e.symm with h | h
    · exact hfirst h.symm
    · exact hjoin h.symm

/-! ## What stays live -/

section Body

variable {first last : BlockId} (hbody : p.second.body = some (first, last)) (h : (p.splice f).Live p.first.last)

include hbody h

/-- The second body is entered from the end of the first body. -/
theorem live_inner_of_last (hb : p.Inner l₂ b) : (p.splice f).Live b := by
  have hr := L.inner_reaches hbody hb
  clear hb
  induction hr with
  | refl _ => exact h.step (L.mem_successors_splice.mpr (Or.inr (Or.inr (Or.inr ⟨first, last, hbody, Or.inl ⟨rfl, rfl⟩⟩))))
  | @tail y z hy hstep hz ih =>
    refine ih.step (L.mem_successors_splice.mpr (Or.inl ⟨hstep, ?_⟩))
    rintro (⟨rfl, _⟩ | ⟨g, hg, rfl, _⟩ | ⟨_, _, _, ⟨_, rfl⟩ | ⟨_, rfl⟩⟩)
    · exact L.disjoint L.latch₁_mem hy.ok_end.1
    · exact L.guard₁_out₂ hg hy.ok_end.1
    · exact L.disjoint L.latch₁_mem hz.1
    · exact hz.2.2 rfl

/-- The second body leads from the end of the first body to the first latch. -/
theorem live_latch₁_of_last : (p.splice f).Live p.first.latch :=
  (L.live_inner_of_last hbody h (L.inner_last hbody).1).step
    (L.mem_successors_splice.mpr (Or.inr (Or.inr (Or.inr ⟨first, last, hbody, Or.inr ⟨rfl, rfl⟩⟩))))

end Body

/-- An edge between blocks that are not late is kept, or the second body leads around it. -/
theorem live_step (ha : (p.splice f).Live a) (hb : ¬p.Late l₂ b) (hstep : b ∈ f.successors a) :
    (p.splice f).Live b := by
  by_cases hcut : p.Cut a b
  · rcases hcut with ⟨_, rfl⟩ | ⟨g, hg, _, rfl⟩ | ⟨first, last, hbody, ⟨rfl, rfl⟩ | ⟨_, rfl⟩⟩
    · exact absurd (L.late_iff.mpr (Or.inl rfl)) hb
    · exact absurd (L.late_iff.mpr (Or.inr (Or.inr (Or.inr ⟨g, hg, rfl⟩)))) hb
    · exact L.live_latch₁_of_last hbody ha
    · exact absurd (L.late_iff.mpr (Or.inr (Or.inr (Or.inl L.latch₂_mem)))) hb
  · exact ha.step (L.mem_successors_splice.mpr (Or.inl ⟨hstep, hcut⟩))

/-- Where the pair is reached, so is the end of the first loop. -/
theorem live_latch₁_of_top (h : (p.splice f).Live p.top) : (p.splice f).Live p.first.latch := by
  have hpre : (p.splice f).Live p.first.preheader := by
    unfold Plan.top at h
    cases hg : p.guards with
    | none => rwa [hg] at h
    | some g =>
      rw [hg] at h
      exact L.live_step h L.preheader₁_not_late ((L.mem_successors_guard₁ hg).mpr (Or.inl rfl))
  have hhead := L.live_step hpre (L.not_late_of_mem L.header₁_mem) (L.mem_successors_preheader₁.mpr rfl)
  have hloop : ∀ {x}, Reaches f.successors (· ∈ l₁.blocks) p.first.header x → (p.splice f).Live x := by
    intro x hx
    induction hx with
    | refl _ => exact hhead
    | tail _ hstep hmem ih => exact L.live_step ih (L.not_late_of_mem hmem) hstep
  exact hloop (L.shape₁.header ▸ L.loop₁.reaches_from_header L.latch₁_mem)

/-- The late blocks are left by the second exit and the join. -/
theorem leave_late (ha : p.Late l₂ a) (hb : ¬p.Late l₂ b) (hstep : b ∈ f.successors a) :
    b = p.second.exit ∨ ∃ g, p.guards = some g ∧ b = g.join := by
  rcases L.late_iff.mp ha with rfl | rfl | h | ⟨g, hg, rfl⟩
  · cases hg : p.guards with
    | none =>
      rw [(L.unguarded hg).1, L.mem_successors_preheader₂] at hstep
      exact absurd (L.late_iff.mpr (Or.inr (Or.inr (Or.inl (hstep ▸ L.header₂_mem))))) hb
    | some g =>
      rw [L.mem_successors_exit₁ hg] at hstep
      exact absurd (L.late_iff.mpr (Or.inr (Or.inr (Or.inr ⟨g, hg, hstep⟩)))) hb
  · rw [L.mem_successors_preheader₂] at hstep
    exact absurd (L.late_iff.mpr (Or.inr (Or.inr (Or.inl (hstep ▸ L.header₂_mem))))) hb
  · by_cases hmem : b ∈ l₂.blocks
    · exact absurd (L.late_iff.mpr (Or.inr (Or.inr (Or.inl hmem)))) hb
    · exact Or.inl (L.shape₂.leave L.loop₂ h hstep hmem).2
  · rcases (L.mem_successors_guard₂ hg).mp hstep with rfl | rfl
    · exact absurd (L.late_iff.mpr (Or.inr (Or.inl rfl))) hb
    · exact Or.inr ⟨g, hg, rfl⟩

/-- **What was live and is not late stays live.** -/
theorem live_splice (hb : f.Live b) : (¬p.Late l₂ b → (p.splice f).Live b) ∧ (p.Late l₂ b → (p.splice f).Live p.top) := by
  rw [Func.live_iff_reaches] at hb
  induction hb with
  | refl _ =>
    refine ⟨fun _ => ?_, fun h => absurd rfl (L.late_ne_entry h)⟩
    have := (p.splice f).live_entry
    rwa [entry_splice] at this
  | @tail x y hx hstep _ ih =>
    have hlive : f.Live x := Func.live_iff_reaches.mpr hx
    refine ⟨fun hy => ?_, fun hy => ?_⟩
    · by_cases hlate : p.Late l₂ x
      · have htop := ih.2 hlate
        rcases L.leave_late hlate hy hstep with rfl | ⟨g, hg, rfl⟩
        · exact (L.live_latch₁_of_top htop).step (L.mem_successors_splice.mpr (Or.inr (Or.inl ⟨rfl, rfl⟩)))
        · rw [Plan.top, hg] at htop
          exact htop.step (L.mem_successors_splice.mpr (Or.inr (Or.inr (Or.inl ⟨g, hg, rfl, rfl⟩))))
      · exact L.live_step (ih.1 hlate) hy hstep
    · rcases L.into_late hy hlive hstep with h | ⟨rfl, _⟩ | ⟨g, hg, rfl, _⟩
      · exact ih.2 h
      · have hdom := L.dominates_kept (fun h => L.not_late_of_early early_top (Or.inl h))
          (L.top_dominates_first L.latch₁_mem) fun h => L.disjoint L.latch₁_mem h.1
        exact hdom.live (ih.1 (L.not_late_of_mem L.latch₁_mem))
      · rw [Plan.top, hg]
        exact ih.1 (L.guard₁_not_late hg)

end Layout

end SsaFusion
