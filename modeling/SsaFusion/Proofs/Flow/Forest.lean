import SsaFusion.Proofs.Flow.Nest

/-!
# The loops of a function are its natural loops

A block heads a loop exactly if a back edge leads to it (`mem_headers`), and the loop around it holds the blocks from which
the source of a back edge can be reached around the header (`IsLoop.mem_iff_path`). Together with the facts about single
loops this says what the loop nest is, without the searches that find it (`loops_are_natural`).
-/

namespace SsaFusion

/-! ## Headers -/

namespace Func

variable {f : Func} {h t : BlockId}

/-- An edge between live blocks whose target dominates its source. -/
structure BackEdge (f : Func) (t h : BlockId) : Prop where
  live : f.Live t
  edge : h ∈ f.successors t
  dominates : f.Dominates h t

/-- Back edges lead to the headers of loops, and to nothing else. -/
theorem mem_headers : (∃ l ∈ f.loops, l.header = h) ↔ f.Live h ∧ ∃ t, f.BackEdge t h := by
  constructor
  · rintro ⟨l, hl, rfl⟩
    have hloop := isLoop_of_mem hl
    obtain ⟨t, ht⟩ := List.exists_mem_of_ne_nil _ hloop.looping
    obtain ⟨hs, hlive, hdom⟩ := (hloop.tails t).mp ht
    exact ⟨hloop.live, t, hlive, hs, hdom⟩
  · rintro ⟨hlive, t, e⟩
    obtain ⟨l, hl, hh, _⟩ := exists_loop hlive e.edge e.live e.dominates
    exact ⟨l, hl, hh⟩

end Func

/-! ## Blocks -/

namespace IsLoop

variable {f : Func} {l : Loop} {b : BlockId} (hl : IsLoop f l)

include hl

theorem mem_tails_iff {t : BlockId} : t ∈ l.tails ↔ f.BackEdge t l.header := by
  rw [hl.tails]
  exact ⟨fun ⟨hs, hlive, hdom⟩ => ⟨hlive, hs, hdom⟩, fun e => ⟨e.edge, e.live, e.dominates⟩⟩

/-- A block lies in a loop if it is the header, or a path from it to the source of a back edge avoids the header. -/
theorem mem_iff_path :
    b ∈ l.blocks ↔
      b = l.header ∨ f.Live b ∧ ∃ t p, f.BackEdge t l.header ∧ Path f.successors b p t ∧ l.header ∉ p := by
  rw [hl.blocks]
  refine or_congr_right ⟨?_, ?_⟩
  · rintro ⟨t, ht, hr⟩
    obtain ⟨p, hp, hok⟩ := reaches_iff_path.mp hr
    exact ⟨hr.ok_start.1, t, p, hl.mem_tails_iff.mp ht, hp, fun hm => (hok _ hm).2 rfl⟩
  · rintro ⟨hb, t, p, e, hp, havoid⟩
    refine ⟨t, hl.mem_tails_iff.mpr e, ?_⟩
    have hr : Reaches f.successors (· ≠ l.header) b t :=
      reaches_iff_path.mpr ⟨p, hp, fun x hx hxh => havoid (hxh ▸ hx)⟩
    -- whatever a live block reaches is live
    refine hr.strengthen fun x hx => ⟨?_, hx.ok_end⟩
    rw [Func.live_iff_reaches] at hb ⊢
    exact hb.trans (hx.mono fun _ _ => trivial)

/-- An edge from a live block outside a loop into it leads to the header. -/
theorem eq_header_of_enter {a : BlockId} (ha : f.Live a) (hout : a ∉ l.blocks) (hb : b ∈ l.blocks)
    (hs : b ∈ f.successors a) : b = l.header := by
  by_contra hne
  exact hout (hl.mem_of_step hb hne ha hs)

end IsLoop

/-- **The loops of a function are exactly its natural loops**, whatever its flow graph. There is one loop for every live
block that a back edge leads to. Its blocks, each listed once, are the header and the live blocks from which a path around
the header leads to the source of a back edge. The header dominates the loop and is the only way into it. -/
theorem Func.loops_are_natural (f : Func) :
    (f.loops.map Loop.header).Nodup ∧
    (∀ h, (∃ l ∈ f.loops, l.header = h) ↔ f.Live h ∧ ∃ t, f.BackEdge t h) ∧
    ∀ l ∈ f.loops,
      l.blocks.Nodup ∧
      (∀ b, b ∈ l.blocks ↔ b = l.header ∨
        f.Live b ∧ ∃ t p, f.BackEdge t l.header ∧ Path f.successors b p t ∧ l.header ∉ p) ∧
      (∀ b ∈ l.blocks, f.Dominates l.header b) ∧
      ∀ a b, f.Live a → a ∉ l.blocks → b ∈ l.blocks → b ∈ f.successors a → b = l.header := by
  refine ⟨nodup_headers, fun h => mem_headers, fun l hl => ?_⟩
  have hloop := isLoop_of_mem hl
  exact ⟨hloop.nodup, fun b => hloop.mem_iff_path, fun b => hloop.dominates_of_mem,
    fun a b => hloop.eq_header_of_enter⟩

end SsaFusion
