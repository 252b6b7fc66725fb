import SsaFusion.Proofs.Flow.Loop

/-!
# Sibling loops

Loops of a function are known by their headers, and the parent of a loop is the smallest loop around it. Two loops with
the same parent are disjoint (`Siblings.disjoint`), and a loop around one of them is around the other
(`Siblings.around`). So the block between two siblings, one of which leaves to where the other is entered from, has no
other way into it (`Siblings.into_between`).
-/

namespace SsaFusion

/-! ## Smallest loops -/

theorem smallestLoop_eq_none {ls : List Loop} : smallestLoop ls = none ↔ ls = [] := by
  cases ls with
  | nil => simp [smallestLoop]
  | cons l rest =>
    unfold smallestLoop
    split
    · simp
    · split <;> simp

theorem smallestLoop_eq_some {ls : List Loop} {m : Loop} (h : smallestLoop ls = some m) :
    m ∈ ls ∧ ∀ x ∈ ls, m.blocks.length ≤ x.blocks.length := by
  induction ls generalizing m with
  | nil => cases h
  | cons l rest ih =>
    unfold smallestLoop at h
    split at h
    · rename_i hnone
      obtain rfl := smallestLoop_eq_none.mp hnone
      obtain rfl := Option.some.inj h
      simp
    · rename_i k hk
      obtain ⟨hmem, hle⟩ := ih hk
      split at h
      · rename_i hlk
        obtain rfl := Option.some.inj h
        refine ⟨List.mem_cons_self .., List.forall_mem_cons.mpr ⟨Nat.le_refl _, fun x hx => ?_⟩⟩
        exact Nat.le_trans hlk (hle x hx)
      · rename_i hlk
        obtain rfl := Option.some.inj h
        refine ⟨List.mem_cons_of_mem _ hmem, List.forall_mem_cons.mpr ⟨?_, hle⟩⟩
        omega

/-! ## The nest of a function -/

namespace Func

variable {f : Func} {l l' l₁ l₂ k : Loop} {b h t : BlockId}

/-- Loops made for headers in order have their headers in that order. -/
theorem headers_sublist {make : BlockId → Option Loop} (hmake : ∀ h l, make h = some l → l.header = h) (order : List BlockId) :
    ((order.filterMap make).map Loop.header).Sublist order := by
  induction order with
  | nil => exact .slnil
  | cons h rest ih =>
    rw [List.filterMap_cons]
    split
    · exact ih.cons _
    · rename_i l hl
      rw [List.map_cons, hmake h l hl]
      exact ih.cons_cons _

/-- Loops are listed in reverse postorder of their headers. -/
theorem loops_sublist : (f.loops.map Loop.header).Sublist f.reversePostorder := by
  have hraw : f.loops.map Loop.header =
      (naturalLoops f f.reversePostorder f.dominators).map Loop.header := by
    simp [loops, loopNest, Function.comp_def]
  rw [hraw]
  refine headers_sublist (fun h l hl => ?_) f.reversePostorder
  split at hl
  · cases hl
  · cases hl
    rfl

/-- No two loops have the same header. -/
theorem nodup_headers : (f.loops.map Loop.header).Nodup := loops_sublist.nodup nodup_reversePostorder

theorem eq_of_header_eq (hl : l ∈ f.loops) (hl' : l' ∈ f.loops)
    (e : l.header = l'.header) : l = l' :=
  List.inj_on_of_nodup_map nodup_headers hl hl' e

/-- A live block that dominates the source of an edge to it heads a loop. -/
theorem exists_loop (hh : f.Live h) (hs : h ∈ f.successors t) (ht : f.Live t) (hdom : f.Dominates h t) :
    ∃ l ∈ f.loops, l.header = h ∧ t ∈ l.blocks := by
  have hsrc : t ∈ backSources f f.reversePostorder f.dominators h := mem_backSources.mpr ⟨hs, ht, hdom⟩
  have hraw : loopAround f f.reversePostorder h (backSources f f.reversePostorder f.dominators h) ∈
      naturalLoops f f.reversePostorder f.dominators := by
    refine List.mem_filterMap.mpr ⟨h, mem_reversePostorder.mpr hh, ?_⟩
    cases hb : backSources f f.reversePostorder f.dominators h with
    | nil => rw [hb] at hsrc; cases hsrc
    | cons _ _ => rfl
  have hmem := mem_loops.mpr ⟨_, hraw, rfl⟩
  have hloop := isLoop_of_mem hmem
  exact ⟨_, hmem, rfl, hloop.tail_mem ((hloop.tails t).mpr ⟨hs, ht, hdom⟩)⟩

/-- The parent of a loop is the smallest other loop around its header. -/
theorem parent_spec (hl : l ∈ f.loops) (hk : k ∈ f.loops)
    (hne : k.header ≠ l.header) (hin : l.header ∈ k.blocks) :
    ∃ p ∈ f.loops, l.parent = some p.header ∧ p.blocks.length ≤ k.blocks.length := by
  obtain ⟨raw, hraw, rfl⟩ := mem_loops.mp hl
  obtain ⟨rawk, hrawk, rfl⟩ := mem_loops.mp hk
  have hmem : rawk ∈ (naturalLoops f f.reversePostorder f.dominators).filter
      fun o => o.header != raw.header && o.contains raw.header := by
    rw [List.mem_filter]
    simpa [Loop.contains] using ⟨hrawk, hne, hin⟩
  cases hsmall : enclosingLoop (naturalLoops f f.reversePostorder f.dominators) raw with
  | none =>
    rw [smallestLoop_eq_none.mp hsmall] at hmem
    cases hmem
  | some p =>
    obtain ⟨hp, hle⟩ := smallestLoop_eq_some hsmall
    exact ⟨_, mem_loops.mpr ⟨p, (List.mem_filter.mp hp).1, rfl⟩, rfl, hle rawk hmem⟩

theorem mem_of_parent (hl : l ∈ f.loops) (hp : k ∈ f.loops)
    (hpar : l.parent = some k.header) : k.header ≠ l.header ∧ l.header ∈ k.blocks := by
  obtain ⟨raw, hraw, rfl⟩ := mem_loops.mp hl
  obtain ⟨p, hsmall, hhead⟩ := Option.map_eq_some_iff.mp hpar
  obtain ⟨hmem, _⟩ := smallestLoop_eq_some hsmall
  rw [List.mem_filter] at hmem
  have e := eq_of_header_eq hp (mem_loops.mpr ⟨p, hmem.1, rfl⟩) hhead.symm
  rw [e]
  simpa [Loop.contains] using hmem.2

/-! ## Siblings -/

/-- Two loops with the same parent. -/
structure Siblings (f : Func) (l₁ l₂ : Loop) : Prop where
  first : l₁ ∈ f.loops
  second : l₂ ∈ f.loops
  ne : l₁.header ≠ l₂.header
  parent : l₁.parent = l₂.parent

namespace Siblings

theorem symm (h : f.Siblings l₁ l₂) : f.Siblings l₂ l₁ := ⟨h.second, h.first, h.ne.symm, h.parent.symm⟩

variable (hs : f.Siblings l₁ l₂)

include hs

theorem header_not_mem : l₂.header ∉ l₁.blocks := by
  intro hin
  have hl₁ := isLoop_of_mem hs.first
  obtain ⟨p, hp, hpar, hle⟩ := parent_spec hs.second hs.first hs.ne hin
  obtain ⟨hne, hmem⟩ := mem_of_parent hs.first hp (hs.parent.trans hpar)
  have hloop := isLoop_of_mem hp
  have := hloop.length_lt hl₁ hmem hl₁.header_mem (hloop.dominates_of_mem hmem) hne
  omega

/-- Siblings share no block. -/
theorem disjoint (h₁ : b ∈ l₁.blocks) (h₂ : b ∈ l₂.blocks) : False := by
  have hl₁ := isLoop_of_mem hs.first
  have hl₂ := isLoop_of_mem hs.second
  rcases (hl₁.dominates_of_mem h₁).total (hl₂.dominates_of_mem h₂) (hl₁.live_of_mem h₁) with hd | hd
  · exact hs.header_not_mem ((hl₁.nested hl₂ h₁ h₂ hd hs.ne).2 _ hl₂.header_mem)
  · exact hs.symm.header_not_mem ((hl₂.nested hl₁ h₂ h₁ hd hs.ne.symm).2 _ hl₁.header_mem)

/-- A loop around one sibling is around the other. -/
theorem around (hk : k ∈ f.loops) (hne : k.header ≠ l₂.header) (hin : l₂.header ∈ k.blocks) :
    l₁.header ∈ k.blocks := by
  obtain ⟨p, hp, hpar, hle⟩ := parent_spec hs.second hk hne hin
  have hmem₁ := (mem_of_parent hs.first hp (hs.parent.trans hpar)).2
  have hmem₂ := (mem_of_parent hs.second hp hpar).2
  have hlp := isLoop_of_mem hp
  have hlk := isLoop_of_mem hk
  by_cases e : p.header = k.header
  · exact eq_of_header_eq hp hk e ▸ hmem₁
  · rcases (hlp.dominates_of_mem hmem₂).total (hlk.dominates_of_mem hin) (hlk.live_of_mem hin) with hd | hd
    · have := hlp.length_lt hlk hmem₂ hin hd e
      omega
    · exact (hlk.nested hlp hin hmem₂ hd (Ne.symm e)).2 _ hmem₁

/-- If the exit of one loop is the preheader of the next, only the one loop leads there: another way into that block would
make it head a loop around the second sibling only. -/
theorem into_between {x e a : BlockId} (hexit : l₁.exitEdge = some (x, e)) (hpre : l₂.preheader = some e)
    (hdom : f.Dominates l₁.header l₂.header) (ha : f.Live a) (hstep : e ∈ f.successors a) : a = x := by
  have hl₁ := isLoop_of_mem hs.first
  have hl₂ := isLoop_of_mem hs.second
  obtain ⟨-, -, heout, hleave⟩ := hl₁.exitEdge_spec hexit
  obtain ⟨hpout, hlive, hsucc, -⟩ := hl₂.preheader_spec hpre
  by_cases hmem : a ∈ l₁.blocks
  · exact (hleave a hmem e hstep heout).1
  · have hne : l₁.header ≠ e := fun h => heout (h ▸ hl₁.header_mem)
    have hbetween : f.Dominates l₁.header e := hdom.of_step hs.ne (by simp [hsucc])
    have hback := hl₁.exit_dominates hexit hmem (hbetween.of_step hne hstep)
    obtain ⟨k, hk, rfl, hin⟩ := exists_loop hlive hstep ha hback
    have hloop := isLoop_of_mem hk
    have hfar : l₁.header ∉ k.blocks := fun h => hne (hbetween.antisymm (hloop.dominates_of_mem h) hl₁.live)
    have hne₂ : k.header ≠ l₂.header := fun h => hpout (h ▸ hl₂.header_mem)
    -- the new header goes to the second header only
    rcases (hloop.reaches_from_header hin).cases_head with rfl | ⟨b, hb, hr⟩
    · rw [hsucc, List.mem_singleton] at hstep
      exact absurd hstep hne₂
    · rw [hsucc, List.mem_singleton] at hb
      exact absurd (hs.around hk hne₂ (hb ▸ hr.ok_start)) hfar

end Siblings

end Func

end SsaFusion
