import Mathlib.Data.List.Nodup
import Mathlib.Data.List.Perm.Subperm
import SsaFusion.Flow.Nest
import SsaFusion.Proofs.Flow.DomTree

/-!
# Natural loops

What the search for loops finds (`IsLoop`): a header that dominates the sources of its back edges, and the live blocks
that reach such a source around the header. From this follow the facts that arguments about loops use. Control enters a
loop at its header only (`IsLoop.mem_of_step`), reaches every block of it from there without leaving
(`IsLoop.reaches_from_header`), and two loops that share a block are nested (`IsLoop.nested`).
-/

namespace SsaFusion

/-- Steps against the edges are steps along them, taken from the other end. -/
theorem reaches_reverse {next back : Nat → List Nat} {ok : Nat → Prop}
    (hback : ∀ x y, ok x → ok y → (y ∈ back x ↔ x ∈ next y)) {a b : Nat} :
    Reaches back ok a b ↔ Reaches next ok b a := by
  constructor
  · intro h
    induction h with
    | refl h => exact .refl h
    | tail h hs hc ih => exact .head hc ((hback _ _ h.ok_end hc).mp hs) ih
  · intro h
    induction h with
    | refl h => exact .refl h
    | tail h hs hc ih => exact .head hc ((hback _ _ hc h.ok_end).mpr hs) ih

theorem Loop.tails_eq_of_latch {l : Loop} {t : BlockId} (h : l.latch = some t) : l.tails = [t] := by
  unfold Loop.latch at h
  split at h
  · rename_i t' ht
    rw [ht, Option.some.inj h]
  · cases h

/-- What makes a loop the natural loop of a function around its header. -/
structure IsLoop (f : Func) (l : Loop) : Prop where
  live : f.Live l.header
  tails : ∀ t, t ∈ l.tails ↔ l.header ∈ f.successors t ∧ f.Live t ∧ f.Dominates l.header t
  looping : l.tails ≠ []
  nodup : l.blocks.Nodup
  blocks : ∀ b, b ∈ l.blocks ↔
    b = l.header ∨ ∃ t ∈ l.tails, Reaches f.successors (fun x => f.Live x ∧ x ≠ l.header) b t
  preheader : l.preheader = preheaderOf f f.reversePostorder l.header l.blocks
  exitEdge : l.exitEdge = exitEdgeOf f l.blocks
  guard : l.guard = l.preheader.bind fun p => l.exitEdge.bind fun e => guardOf f f.reversePostorder p e.2

section Found

variable {f : Func} {h : BlockId} {tails : List BlockId}

theorem mem_backSources {t : BlockId} :
    t ∈ backSources f f.reversePostorder f.dominators h ↔ h ∈ f.successors t ∧ f.Live t ∧ f.Dominates h t := by
  unfold backSources
  rw [List.mem_filter, Func.mem_livePredecessors_order, and_assoc]
  refine and_congr_right fun _ => and_congr_right fun ht => ?_
  exact Func.dominators_dominates_of_live ht

theorem mem_loopBlocks {b : BlockId} (hh : f.Live h) :
    b ∈ loopBlocks f f.reversePostorder h tails ↔
      b = h ∨ ∃ t ∈ tails, Reaches f.successors (fun x => f.Live x ∧ x ≠ h) b t := by
  have hinside : b ∈ reach (f.livePredecessors f.reversePostorder) (f.reversePostorder.filter (· != h)) tails ↔
      ∃ t ∈ tails, Reaches f.successors (fun x => f.Live x ∧ x ≠ h) b t := by
    rw [mem_reach]
    refine exists_congr fun t => and_congr_right fun _ => ?_
    simp only [List.mem_filter, Func.mem_reversePostorder, bne_iff_ne]
    refine reaches_reverse fun x y _ hy => ?_
    rw [Func.mem_livePredecessors_order]
    exact ⟨And.left, fun h => ⟨h, hy.1⟩⟩
  unfold loopBlocks
  simp only [List.mem_filter, Func.mem_reversePostorder, Bool.or_eq_true, beq_iff_eq, List.contains_iff_mem, hinside]
  constructor
  · exact And.right
  · rintro (rfl | ⟨t, ht, hr⟩)
    · exact ⟨hh, Or.inl rfl⟩
    · exact ⟨hr.ok_start.1, Or.inr ⟨t, ht, hr⟩⟩

/-- The loops of a function, each with the header of its parent. -/
def Func.loops (f : Func) : List Loop := (f.loopNest f.dominators).loops

/-- A loop as found, before its parent is. -/
theorem Func.mem_loops {l : Loop} :
    l ∈ f.loops ↔ ∃ raw ∈ naturalLoops f f.reversePostorder f.dominators,
      l = { raw with
        parent := (enclosingLoop (naturalLoops f f.reversePostorder f.dominators) raw).map Loop.header } := by
  simp only [loops, loopNest, List.mem_map, eq_comm]

/-- Every loop of the nest is a natural loop. -/
theorem isLoop_of_mem {l : Loop} (hl : l ∈ f.loops) : IsLoop f l := by
  obtain ⟨raw, hraw, rfl⟩ := Func.mem_loops.mp hl
  obtain ⟨h, hh, hfound⟩ := List.mem_filterMap.mp hraw
  have hlive : f.Live h := Func.mem_reversePostorder.mp hh
  cases hsrc : backSources f f.reversePostorder f.dominators h with
  | nil => simp [hsrc] at hfound
  | cons t rest =>
    rw [hsrc] at hfound
    cases hfound
    have htails : ∀ x, x ∈ t :: rest ↔ h ∈ f.successors x ∧ f.Live x ∧ f.Dominates h x := by
      intro x
      rw [← hsrc]
      exact mem_backSources
    have hnodup : (loopBlocks f f.reversePostorder h (t :: rest)).Nodup :=
      List.Nodup.filter _ Func.nodup_reversePostorder
    exact ⟨hlive, htails, List.cons_ne_nil _ _, hnodup, fun b => mem_loopBlocks hlive, rfl, rfl, rfl⟩

end Found

namespace IsLoop

variable {f : Func} {l l' : Loop} {a b c : BlockId} (hl : IsLoop f l)

include hl

theorem header_mem : l.header ∈ l.blocks := (hl.blocks _).mpr (Or.inl rfl)

theorem tail_mem (h : a ∈ l.tails) : a ∈ l.blocks := by
  obtain ⟨_, hlive, _⟩ := (hl.tails a).mp h
  by_cases e : a = l.header
  · exact e ▸ hl.header_mem
  · exact (hl.blocks a).mpr (Or.inr ⟨a, h, .refl ⟨hlive, e⟩⟩)

theorem live_of_mem (h : b ∈ l.blocks) : f.Live b := by
  rcases (hl.blocks b).mp h with rfl | ⟨_, _, hr⟩
  · exact hl.live
  · exact hr.ok_start.1

/-- The header dominates the loop. -/
theorem dominates_of_mem (h : b ∈ l.blocks) : f.Dominates l.header b := by
  rcases (hl.blocks b).mp h with rfl | ⟨t, ht, hr⟩
  · exact .refl _
  · rw [Func.dominates_iff_doms]
    intro hb
    have hdom := ((hl.tails t).mp ht).2.2
    exact Func.dominates_iff_doms.mp hdom (hb.trans (hr.mono fun _ => And.right))

/-- Control enters a loop at its header only. -/
theorem mem_of_step (hb : b ∈ l.blocks) (hne : b ≠ l.header) (ha : f.Live a) (hs : b ∈ f.successors a) :
    a ∈ l.blocks := by
  by_cases e : a = l.header
  · exact e ▸ hl.header_mem
  · obtain ⟨t, ht, hr⟩ := ((hl.blocks b).mp hb).resolve_left hne
    exact (hl.blocks a).mpr (Or.inr ⟨t, ht, .head ⟨ha, e⟩ hs hr⟩)

/-- The header reaches every block of the loop inside the loop. -/
theorem reaches_from_header (hb : b ∈ l.blocks) : Reaches f.successors (· ∈ l.blocks) l.header b := by
  have hlive := Func.live_iff_reaches.mp (hl.live_of_mem hb)
  induction hlive with
  | refl _ =>
    have e : l.header = f.entry := Func.eq_entry_of_dominates (hl.dominates_of_mem hb)
    rw [← e]
    exact .refl hl.header_mem
  | @tail a c ha hs _ ih =>
    by_cases e : c = l.header
    · rw [e]
      exact .refl hl.header_mem
    · exact .tail (ih (hl.mem_of_step hb e (Func.live_iff_reaches.mpr ha) hs)) hs hb

/-- Every block of the loop reaches the source of a back edge inside the loop. -/
theorem reaches_tail (hb : b ∈ l.blocks) : ∃ t ∈ l.tails, Reaches f.successors (· ∈ l.blocks) b t := by
  -- the blocks on the way to a source around the header are in the loop
  have inside : ∀ {x t}, t ∈ l.tails → Reaches f.successors (fun x => f.Live x ∧ x ≠ l.header) x t →
      Reaches f.successors (· ∈ l.blocks) x t := by
    intro x t ht hr
    have : ∀ {y}, Reaches f.successors (fun x => f.Live x ∧ x ≠ l.header) y t →
        Reaches f.successors (fun x => f.Live x ∧ x ≠ l.header) x y → Reaches f.successors (· ∈ l.blocks) x y := by
      intro y hy hxy
      induction hxy with
      | refl _ => exact .refl ((hl.blocks _).mpr (Or.inr ⟨t, ht, hy⟩))
      | tail hxb hs hc ih =>
        exact .tail (ih (.head hxb.ok_end hs hy)) hs ((hl.blocks _).mpr (Or.inr ⟨t, ht, hy⟩))
    exact this (.refl hr.ok_end) hr
  rcases (hl.blocks b).mp hb with rfl | ⟨t, ht, hr⟩
  · obtain ⟨t, ht⟩ := List.exists_mem_of_ne_nil _ hl.looping
    exact ⟨t, ht, hl.reaches_from_header (hl.tail_mem ht)⟩
  · exact ⟨t, ht, inside ht hr⟩

/-- Going back from a block of the loop without meeting the header stays in the loop. -/
theorem mem_of_reaches {ok : BlockId → Prop} (hok : ∀ x, ok x → f.Live x ∧ x ≠ l.header)
    (h : Reaches f.successors ok a b) (hb : b ∈ l.blocks) : a ∈ l.blocks := by
  induction h with
  | refl _ => exact hb
  | tail h hs hc ih => exact ih (hl.mem_of_step hb (hok _ hc).2 (hok _ h.ok_end).1 hs)

/-! ## The blocks around a loop -/

/-- Inside the loop, only the latch goes back to the header. -/
theorem latch_spec {t : BlockId} (ht : l.latch = some t) :
    t ∈ l.blocks ∧ l.header ∈ f.successors t ∧ ∀ a ∈ l.blocks, l.header ∈ f.successors a → a = t := by
  have htails := Loop.tails_eq_of_latch ht
  have hmem : t ∈ l.tails := htails ▸ List.mem_singleton_self t
  refine ⟨hl.tail_mem hmem, ((hl.tails t).mp hmem).1, fun a ha hs => ?_⟩
  have : a ∈ l.tails := (hl.tails a).mpr ⟨hs, hl.live_of_mem ha, hl.dominates_of_mem ha⟩
  rwa [htails, List.mem_singleton] at this

/-- A preheader goes to the header only, and nothing else outside the loop does. -/
theorem preheader_spec {p : BlockId} (hp : l.preheader = some p) :
    p ∉ l.blocks ∧ f.Live p ∧ f.successors p = [l.header] ∧
      ∀ a, f.Live a → l.header ∈ f.successors a → a ∉ l.blocks → a = p := by
  rw [hl.preheader] at hp
  unfold preheaderOf at hp
  split at hp
  · rename_i q hq
    split at hp
    · rename_i hsucc
      obtain rfl := Option.some.inj hp
      have hmem : ∀ a, a ∈ [q] ↔ (l.header ∈ f.successors a ∧ f.Live a) ∧ a ∉ l.blocks := by
        intro a
        rw [← hq, List.mem_filter, Func.mem_livePredecessors_order]
        simp
      obtain ⟨⟨_, hlive⟩, hout⟩ := (hmem q).mp (List.mem_singleton_self q)
      refine ⟨hout, hlive, hsucc, fun a ha hs hn => ?_⟩
      exact List.mem_singleton.mp ((hmem a).mpr ⟨⟨hs, ha⟩, hn⟩)
    · cases hp
  · cases hp

/-- Control leaves the loop over its exit edge only. -/
theorem exitEdge_spec {x y : BlockId} (he : l.exitEdge = some (x, y)) :
    x ∈ l.blocks ∧ y ∈ f.successors x ∧ y ∉ l.blocks ∧
      ∀ a ∈ l.blocks, ∀ c ∈ f.successors a, c ∉ l.blocks → a = x ∧ c = y := by
  rw [hl.exitEdge] at he
  unfold exitEdgeOf at he
  split at he
  · rename_i e hedges
    obtain rfl := Option.some.inj he
    have hmem : ∀ a c, (a, c) ∈ [(x, y)] ↔ a ∈ l.blocks ∧ c ∈ f.successors a ∧ c ∉ l.blocks := by
      intro a c
      rw [← hedges]
      simp [leavingEdges]
    obtain ⟨h₁, h₂, h₃⟩ := (hmem x y).mp (List.mem_singleton_self _)
    refine ⟨h₁, h₂, h₃, fun a ha c hc hn => ?_⟩
    exact Prod.mk.inj (List.mem_singleton.mp ((hmem a c).mpr ⟨ha, hc, hn⟩))
  · cases he

/-- A guard is the only live block in front of its preheader and decides between it and a way past the loop. -/
theorem guard_spec {g : BlockId} (hg : l.guard = some g) :
    ∃ p e skip, l.preheader = some p ∧ l.exit = some e ∧ f.Live g ∧ p ∈ f.successors g ∧
      (∀ a, f.Live a → p ∈ f.successors a → a = g) ∧ (f.term? g).bind (Terminator.other? p) = some skip ∧ skip ≠ p ∧
      (skip = e ∨ f.successors e = [skip]) := by
  rw [hl.guard] at hg
  obtain ⟨p, hp, hg⟩ := Option.bind_eq_some_iff.mp hg
  obtain ⟨⟨x, e⟩, he, hg⟩ := Option.bind_eq_some_iff.mp hg
  unfold guardOf at hg
  split at hg
  · rename_i g' hpreds
    split at hg
    · rename_i skip hskip
      split at hg
      · rename_i hcond
        obtain rfl := Option.some.inj hg
        have hmem : ∀ a, a ∈ [g'] ↔ p ∈ f.successors a ∧ f.Live a := by
          intro a
          rw [← hpreds, Func.mem_livePredecessors_order]
        obtain ⟨hs, hlive⟩ := (hmem g').mp (List.mem_singleton_self _)
        refine ⟨p, e, skip, hp, by simp [Loop.exit, he], hlive, hs, fun a ha hs => ?_, hskip, ?_⟩
        · exact List.mem_singleton.mp ((hmem a).mpr ⟨hs, ha⟩)
        · simpa using hcond
      · cases hg
    · cases hg
  · cases hg

/-- A loop is entered from outside, so its header is not the entry if there is a preheader. -/
theorem header_ne_entry {p : BlockId} (hp : l.preheader = some p) : l.header ≠ f.entry := by
  obtain ⟨hout, hlive, hsucc, _⟩ := hl.preheader_spec hp
  intro e
  have hs : l.header ∈ f.successors p := by simp [hsucc]
  exact hout (hl.tail_mem ((hl.tails p).mpr ⟨hs, hlive, e ▸ .entry p⟩))

theorem preheader_dominates {p : BlockId} (hp : l.preheader = some p) : f.Dominates p l.header := by
  refine Func.dominates_of_into (hl.header_ne_entry hp) fun q hq hs => ?_
  by_cases hmem : q ∈ l.blocks
  · exact Or.inr (hl.dominates_of_mem hmem)
  · exact Or.inl ((hl.preheader_spec hp).2.2.2 q hq hs hmem ▸ .refl q)

/-- What the header dominates outside the loop comes after its exit. -/
theorem exit_dominates {x y : BlockId} (he : l.exitEdge = some (x, y)) (hb : b ∉ l.blocks)
    (hdom : f.Dominates l.header b) : f.Dominates y b := by
  rw [Func.dominates_iff_doms] at hdom ⊢
  intro h
  have inside : ∀ {z}, Reaches f.successors (· ≠ y) f.entry z →
      z ∈ l.blocks ∨ Reaches f.successors (· ≠ l.header) f.entry z := by
    intro z hz
    induction hz with
    | refl _ =>
      by_cases e : f.entry = l.header
      · exact Or.inl (e ▸ hl.header_mem)
      · exact Or.inr (.refl e)
    | @tail q z _ hs hz ih =>
      by_cases e : z = l.header
      · exact Or.inl (e ▸ hl.header_mem)
      · refine ih.imp (fun hq => ?_) fun hq => .tail hq hs e
        by_contra hout
        exact hz ((hl.exitEdge_spec he).2.2.2 q hq z hs hout).2
  exact (inside h).elim hb hdom

/-! ## Nesting -/

variable (hl' : IsLoop f l')

include hl'

/-- Two loops that share a block are nested: the loop of the dominated header lies in the other, around its header. -/
theorem nested (hb : b ∈ l.blocks) (hb' : b ∈ l'.blocks) (hdom : f.Dominates l.header l'.header)
    (hne : l.header ≠ l'.header) : l.header ∉ l'.blocks ∧ ∀ x ∈ l'.blocks, x ∈ l.blocks := by
  have hout : l.header ∉ l'.blocks := fun h => hne (hdom.antisymm (hl'.dominates_of_mem h) hl.live)
  have hok : ∀ x, x ∈ l'.blocks → f.Live x ∧ x ≠ l.header :=
    fun x hx => ⟨hl'.live_of_mem hx, fun e => hout (e ▸ hx)⟩
  have hhead : l'.header ∈ l.blocks := hl.mem_of_reaches hok (hl'.reaches_from_header hb') hb
  refine ⟨hout, fun x hx => ?_⟩
  obtain ⟨t, ht, hr⟩ := hl'.reaches_tail hx
  obtain ⟨hs, hlive, _⟩ := (hl'.tails t).mp ht
  exact hl.mem_of_reaches hok hr (hl.mem_of_step hhead hne.symm hlive hs)

/-- A loop around another header has more blocks. -/
theorem length_lt (hb : b ∈ l.blocks) (hb' : b ∈ l'.blocks) (hdom : f.Dominates l.header l'.header)
    (hne : l.header ≠ l'.header) : l'.blocks.length < l.blocks.length := by
  obtain ⟨hout, hsub⟩ := hl.nested hl' hb hb' hdom hne
  have hsub' : l.header :: l'.blocks ⊆ l.blocks := by
    intro x hx
    rcases List.mem_cons.mp hx with rfl | hx
    · exact hl.header_mem
    · exact hsub x hx
  have := (List.subperm_of_subset (List.nodup_cons.mpr ⟨hout, hl'.nodup⟩) hsub').length_le
  rwa [List.length_cons] at this

end IsLoop

end SsaFusion
