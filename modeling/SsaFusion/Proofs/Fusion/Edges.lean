import SsaFusion.Proofs.Fusion.Hops

/-!
# Edges inside the pair

On an edge of the fused run inside the pair, the front, the back or both go to their next block (`Lands`). The phis that stand
behind the edge receive what they receive on the way to these blocks (`hop_inside`). The last edge leads behind the pair, where
the fused run is with the run again (`hop_end`).
-/

namespace SsaFusion

open Plan (phiDests bodyDests)

/-! ## One party goes on or waits -/

/-- A moment stays as it is or goes on to the next block. -/
def Lands (f : Func) (M : Nat → Moment) (k k' : Nat) : Prop := k' = k ∨ k' = k + 1 ∧ (M k).Moves f (M k')

/-- The blocks to which a party has gone on. -/
def landed (M : Nat → Moment) (k k' : Nat) : List BlockId := if k' = k then [] else [(M k').block]

theorem mem_landed {M : Nat → Moment} {k k' : Nat} {b : BlockId} : b ∈ landed M k k' ↔ k' ≠ k ∧ b = (M k').block := by
  unfold landed
  split <;> simp [*]

theorem landed_same {M : Nat → Moment} {k : Nat} : landed M k k = [] := if_pos rfl

theorem landed_succ {M : Nat → Moment} {k : Nat} : landed M k (k + 1) = [(M (k + 1)).block] :=
  if_neg (Nat.succ_ne_self k)

namespace Lands

variable {f : Func} {M : Nat → Moment} {k k' : Nat} {v : ValueId}

theorem same : Lands f M k k := Or.inl rfl

theorem go (h : (M k).Moves f (M (k + 1))) : Lands f M k (k + 1) := Or.inr ⟨rfl, h⟩

variable (h : Lands f M k k')

include h

theorem moves {b : BlockId} (hb : b ∈ landed M k k') : k' = k + 1 ∧ (M k).Moves f (M (k + 1)) ∧ b = (M (k + 1)).block := by
  obtain ⟨hne, rfl⟩ := mem_landed.mp hb
  obtain ⟨rfl, hmove⟩ := h.resolve_left hne
  exact ⟨rfl, hmove, rfl⟩

theorem memory : (M k').machine.memory = (M k).machine.memory := by
  rcases h with rfl | ⟨-, h⟩
  · rfl
  · exact h.memory

theorem cell? (a n : Nat) : (M k').machine.cell? a n = (M k).machine.cell? a n := by
  rw [Machine.cell?, Machine.cell?, h.memory]

theorem env (hv : ∀ b ∈ landed M k k', v ∉ phiDests f b) : (M k').machine.env.get? v = (M k).machine.env.get? v := by
  rcases h with rfl | ⟨rfl, h⟩
  · rfl
  · exact h.frame v (hv _ (by rw [landed_succ]; exact List.mem_singleton_self _))

theorem steps : (M k').machine.steps + k =
    (M k).machine.steps + k' + ((landed M k k').flatMap f.phisAt).length := by
  rcases h with rfl | ⟨rfl, h⟩
  · rw [landed_same]
    rfl
  · rw [landed_succ, h.steps, List.flatMap_singleton]
    omega

theorem overwritten {t : Nat} : Overwritten f M t k' = Overwritten f M t k := by
  rcases h with rfl | ⟨rfl, h⟩
  · rfl
  · funext a n
    refine propext ⟨?_, ?_⟩
    · rintro ⟨m, htm, hmk, hm⟩
      refine ⟨m, htm, Nat.lt_of_le_of_ne (Nat.le_of_lt_succ hmk) ?_, hm⟩
      rintro rfl
      rw [Moment.access?, h.last] at hm
      cases hm
    · rintro ⟨m, htm, hmk, hm⟩
      exact ⟨m, htm, by omega, hm⟩

end Lands

section Blend

variable {f : Func} {l₂ : Loop} {p : Plan} {M : Nat → Moment} {t i i' j j' : Nat} {v : ValueId}
variable (hi : Lands f M i i') (hj : Lands f M j j')

include hi hj

/-- No cell changes on an edge. -/
theorem cell_blend_lands (a n : Nat) : (blend f l₂ p M t i' j').cell a n = (blend f l₂ p M t i j).cell a n := by
  rw [blend, blend, hj.overwritten]
  by_cases h : (M t).machine.memory.size ≤ a ∨ Overwritten f M t j a n
  · rw [Store.cell_mix_of_over h, Store.cell_mix_of_over h]
    exact hj.cell? a n
  · rw [Store.cell_mix_of_not_over h, Store.cell_mix_of_not_over h]
    exact hi.cell? a n

theorem made_blend_lands (a : Nat) : (blend f l₂ p M t i' j').made a ↔ (blend f l₂ p M t i j).made a := by
  simp only [blend, Store.mix, Machine.store, hi.memory, hj.memory]

/-- A value changes on an edge only if a phi receives it there. -/
theorem env_blend_lands (hv : ∀ b, b ∈ landed M i i' ∨ b ∈ landed M j j' → v ∉ phiDests f b) :
    (blend f l₂ p M t i' j').env v = (blend f l₂ p M t i j).env v := by
  by_cases hown : p.Own f l₂ v
  · rw [env_blend_of_own hown, env_blend_of_own hown]
    exact hj.env fun b hb => hv b (Or.inr hb)
  · rw [env_blend_of_not_own hown, env_blend_of_not_own hown]
    exact hi.env fun b hb => hv b (Or.inl hb)

end Blend

namespace FusedRun

variable {f : Func} {l₁ l₂ : Loop} {p : Plan} {args : List Word} {limit N i i' j j' s t e : Nat} {M : Nat → Moment} {r : RunResult}
variable {b c n : BlockId} {v : ValueId} {F F₁ : Machine}
variable (W : FusedRun f l₁ l₂ p args limit M N r) (P : Crossing f l₁ l₂ p M N s t e)

include W P

/-! ## Values that phis receive -/

/-- What a phi of the front receives, it receives in the fused run. -/
theorem receives_front {s' : Store} (hsi : s ≤ i) (hit : i < t) (hmove : (M i).Moves f (M (i + 1)))
    (hsource : p.sourceName (M i).block = c)
    (henv : ∀ v ∈ phiDests f (M (i + 1)).block, p.Wanted f v → s'.env v = (M (i + 1)).machine.env.get? v) :
    Receives f p M (blend f l₂ p M t i j) s' c (M (i + 1)).block i := by
  have L := W.layout
  have hlive : f.Live (M i).block := W.completes.live W.valid.once (by have := P.le; have := P.turn_lt; omega)
  refine ⟨hmove, rfl, hsource, henv, fun phi hphi d sources hop _ q hq hq₁ _ x hx => ?_⟩
  rw [Layout.sourceOperand_plain fun g hg hjoin => ?_, p.standInOperand_eq_through]
  · refine (Store.shows_of_env fun v hov y hy => ?_) x hx
    have hok := W.valid.phis _ (hlive.step hmove.edge) phi (Func.mem_instrsOf_of_phi hphi) sources
      (phi.sources?_of_phi hop)
    have hav := hok.reads q hq (by rw [hq₁]; exact hlive) v (by rw [hov]; rfl)
    exact (P.front_shows L W.valid hsi hit (hq₁ ▸ hav)).trans hy
  · have hfront := P.front i hsi hit
    rw [← hq₁, hjoin.2] at hfront
    exact L.not_back_of_front hfront (Or.inr (Or.inr ⟨g, hg, Or.inl rfl⟩))

omit P in
/-- A phi of the second guard that is wanted where it is read is at a closed join. -/
theorem joinClosed_of_guardPhi (h : p.GuardPhi f v) (hw : p.Wanted f (Snapshot.standIn p v)) :
    ∃ g, p.guards = some g ∧ v ∈ phiDests f g.second ∧ Layout.JoinClosed f p g := by
  obtain ⟨g, hg, hphi⟩ := h
  have hu : p.unifies v = false := by
    by_contra hu
    have := (W.layout.unifies_spec W.valid (by simpa using hu)).1 g.second (Layout.mem_destsAt.mpr (Or.inl hphi))
    exact W.layout.guard₂_out₂ hg (this ▸ W.layout.header₂_mem)
  rw [Layout.standIn_of_not_unifies hu] at hw
  exact ⟨g, hg, hphi, W.joinClosed hg hphi hw⟩

omit W P in
/-- What the phis of a block read at the end of the block where the back is, the fused run shows. -/
def Sources (f : Func) (l₂ : Loop) (p : Plan) (M : Nat → Moment) (t i j : Nat) (b : BlockId) : Prop :=
  ∀ phi ∈ f.phisAt b, ∀ d sources, phi.op = .phi d sources → p.Wanted f d → ∀ v, ((M j).block, .var v) ∈ sources →
    f.AvailableOut (M j).block v → ¬p.GuardPhi f v →
    (blend f l₂ p M t i j).env (Snapshot.standIn p v) = (M j).machine.env.get? v

section Back

variable (htj : t ≤ j) (hje : j < e) (hmove : (M j).Moves f (M (j + 1)))
variable (hplain : ∀ g, p.guards = some g → ¬((M (j + 1)).block = g.join ∧ (M j).block = g.second))

include htj hje hmove hplain

/-- Behind the back, a phi of the second guard is not received along an edge that stays. -/
theorem not_guardPhi_of_source {phi : Instr} (hphi : phi ∈ f.phisAt (M (j + 1)).block) {sources : List (BlockId × Operand)}
    (hs : phi.sources? = some sources) (hq : ((M j).block, .var v) ∈ sources) (hw : p.Wanted f (Snapshot.standIn p v)) :
    ¬p.GuardPhi f v := by
  have L := W.layout
  intro h
  obtain ⟨g, hg, hmem, hclosed⟩ := W.joinClosed_of_guardPhi h hw
  have hback := P.back j htj hje
  rcases L.back_step hback hmove.edge with hnext | hnext
  · exact L.guardPhi_not_source hg hclosed hmem hnext hphi hs hq rfl
  · have hjoin : (M (j + 1)).block = g.join := hnext.trans (Plan.after_guarded hg)
    have hdom := L.join_dominates_of_phi hg hmem ((L.live_of_back hback).step hmove.edge) hphi hs hq rfl
    rw [if_pos hjoin] at hdom
    exact hplain g hg ⟨hjoin, hdom⟩

/-- What a phi of the back receives, it receives in the fused run. -/
theorem receives_back {s' : Store} (hsource : p.sourceName (M j).block = c)
    (henv : ∀ v ∈ phiDests f (M (j + 1)).block, p.Wanted f v → s'.env v = (M (j + 1)).machine.env.get? v)
    (hreads : Sources f l₂ p M t i j (M (j + 1)).block) :
    Receives f p M (blend f l₂ p M t i j) s' c (M (j + 1)).block j := by
  have hlive := W.layout.live_of_back (P.back j htj hje)
  refine ⟨hmove, rfl, hsource, henv, fun phi hphi d sources hop hw q hq hq₁ hgood x hx => ?_⟩
  obtain ⟨a, o⟩ := q
  obtain rfl : a = (M j).block := hq₁
  rw [Layout.sourceOperand_plain (fun g hg hjoin => hplain g hg hjoin), p.standInOperand_eq_through] at hgood ⊢
  refine (Store.shows_of_env fun v hov y hy => ?_) x hx
  obtain rfl : o = .var v := hov
  have hs := phi.sources?_of_phi hop
  have hok := W.valid.phis _ (hlive.step hmove.edge) phi (Func.mem_instrsOf_of_phi hphi) sources hs
  have hnot := W.not_guardPhi_of_source P htj hje hmove hplain hphi hs hq (hgood _ rfl)
  exact (hreads phi hphi d sources hop hw v hq (hok.reads _ hq hlive v rfl) hnot).trans hy

end Back

/-! ## An edge inside the pair -/

omit P in
theorem own_of_phi (hb : p.Back l₂ b) (hne : ∀ g, p.guards = some g → b ≠ g.second) (hphi : v ∈ phiDests f b) :
    p.Own f l₂ v := by
  have hmem : v ∈ f.destsAt b := Layout.mem_destsAt.mpr (Or.inl hphi)
  refine ⟨⟨b, hb, hmem⟩, ?_⟩
  rintro ⟨g, hg, h⟩
  exact hne g hg (Func.destsAt_unique W.valid.once hmem (Layout.mem_destsAt.mpr (Or.inl h)))

/-- On an edge inside the pair, the fused run goes on with the front, the back or both. -/
theorem hop_inside {term : Terminator} {m : Machine} (hi : Lands f M i i') (hj : Lands f M j j') (hlt : i + j < i' + j')
    (hsi : s ≤ i) (hit : i' < t) (htj : t ≤ j) (hje : j' < e) (hc : (p.splice f).Live c) (ht : f.term? c = some term)
    (hrun : F.runInstrs limit ((p.bodySources c).flatMap (p.code f)) = .ok F₁)
    (hF : Crossing.Blended (p.Wanted f) f l₂ p M t i j F₁) (hgoto : m.transfer c term = .ok (.goto n))
    (hshow : ∀ o ∈ term.operands, (blend f l₂ p M t i j).Shows (Snapshot.standIn p) m o)
    (hnext : (p.splice f).Live (p.redirect c n))
    (hphis : ∀ b v, p.redirect c n = p.phiHome b → v ∈ phiDests f b → p.Wanted f v →
      b ∈ landed M i i' ∧ p.sourceName (M i).block = c ∨ b ∈ landed M j j' ∧ p.sourceName (M j).block = c)
    (hhome : ∀ b, b ∈ landed M i i' ∨ b ∈ landed M j j' → f.phisAt b = [] ∨ p.redirect c n = p.phiHome b)
    (hreads : ∀ b ∈ landed M j j', Sources f l₂ p M t i j b) :
    ∃ F', (p.apply f).Hops limit F (p.label f c) F' (p.label f (p.redirect c n)) ∧
      Crossing.Blended (p.Wanted f) f l₂ p M t i' j' F' := by
  have L := W.layout
  have C := W.completes
  obtain ⟨ρ, hnamed⟩ := hF.named
  have hnever : ∀ b v, v ∈ phiDests f b → f.phisAt b ≠ [] := by
    rintro b v hv h
    rw [phiDests, h] at hv
    cases hv
  have hreceives : ∀ b v, p.redirect c n = p.phiHome b → v ∈ phiDests f b → p.Wanted f v →
      b ∈ landed M i i' ++ landed M j j' ∧
        ∃ k, Receives f p M (blend f l₂ p M t i j) (blend f l₂ p M t i' j') c b k := by
    intro b v hb hphi hw
    refine ⟨List.mem_append.mpr ((hphis b v hb hphi hw).imp And.left And.left), ?_⟩
    rcases hphis b v hb hphi hw with ⟨hmem, hsource⟩ | ⟨hmem, hsource⟩
    · obtain ⟨rfl, hmove, rfl⟩ := hi.moves hmem
      refine ⟨i, W.receives_front P hsi (by omega) hmove hsource fun v hv _ => ?_⟩
      have hfront := P.front (i + 1) (by omega) hit
      exact env_blend_of_not_own (Crossing.not_own_of_front L W.valid hfront (Layout.mem_destsAt.mpr (Or.inl hv)))
    · have hland := hreads b hmem
      obtain ⟨rfl, hmove, rfl⟩ := hj.moves hmem
      have hback := P.back (j + 1) (by omega) hje
      have hne : ∀ g, p.guards = some g → (M (j + 1)).block ≠ g.second := by
        intro g hg he
        have hedge := hmove.edge
        rw [he, ← Plan.turn_guarded hg] at hedge
        exact L.not_back_of_front (L.into_turn (L.live_of_back (P.back j htj (by omega))) hedge) (P.back j htj (by omega))
      refine ⟨j, W.receives_back P htj (by omega) hmove (fun g hg h => ?_) hsource (fun v hv _ => ?_) hland⟩
      · exact L.after_not_back (Plan.after_guarded hg ▸ h.1 ▸ hback)
      · exact env_blend_of_own (W.own_of_phi hback hne hv)
  have hframe : ∀ v, p.Wanted f v → (∀ b, p.redirect c n = p.phiHome b → v ∉ phiDests f b) →
      (blend f l₂ p M t i' j').env v = (blend f l₂ p M t i j).env v := fun v _ hnot =>
    env_blend_lands hi hj fun b hb hv => (hhome b hb).elim (hnever b v hv) fun h => hnot b h hv
  have histeps := hi.steps
  have hjsteps := hj.steps
  have hFsteps := hF.steps
  have hbound := C.steps_mono W.valid.once hit.le (P.turn_lt.le.trans P.le)
  have hlimit := C.steps_le (hje.le.trans P.le)
  have hsum : ((landed M i i' ++ landed M j j').flatMap f.phisAt).length =
      ((landed M i i').flatMap f.phisAt).length + ((landed M j j').flatMap f.phisAt).length := by
    rw [List.flatMap_append, List.length_append]
  obtain ⟨F', hhop, hnamed', hsteps⟩ := W.hops (landed M i i' ++ landed M j j') hc ht hrun hnamed hgoto hshow hnext hreceives hframe
    (fun a _ n => cell_blend_lands hi hj a n) (made_blend_lands hi hj) (by omega)
  refine ⟨F', hhop, ⟨ρ, hnamed'⟩, by omega, fun a n hover => ?_⟩
  rw [hj.overwritten] at hover
  rw [hi.memory]
  exact hF.reach a n hover

/-! ## The edge that leads behind the pair -/

omit P in
theorem after_not_late : ¬p.Late l₂ p.after := by
  unfold Plan.after
  cases hg : p.guards with
  | none => exact W.layout.exit₂_not_late
  | some g => exact W.layout.join_not_late hg

omit P in
theorem after_out₁ : p.after ∉ l₁.blocks := by
  unfold Plan.after
  cases hg : p.guards with
  | none => exact W.layout.exit₂_out.1
  | some g => exact W.layout.join_out₁ hg

omit P in
/-- The phis that stand behind the pair were there or at the second guard. -/
theorem phiHome_after (h : p.after = p.phiHome b) : b = p.after ∨ ∃ g, p.guards = some g ∧ b = g.second := by
  have L := W.layout
  rcases L.phiHome_inv h with rfl | ⟨-, h⟩ | ⟨g, hg, ⟨rfl, -⟩ | ⟨-, h⟩⟩
  · exact Or.inl rfl
  · exact absurd (h ▸ L.header₁_mem) W.after_out₁
  · exact Or.inr ⟨g, hg, rfl⟩
  · rw [Plan.after_guarded hg] at h
    exact absurd h fun h => L.join_not_mem hg (by simp [h])

/-- A phi of the second guard keeps its value up to the end of the crossing. -/
theorem env_guardPhi (hj : (M j).Moves f (M e)) (hje : j + 1 = e) (htj : t ≤ j) {g : GuardShape} (hg : p.guards = some g)
    (hphi : v ∈ phiDests f g.second) : (M e).machine.env.get? v = (M t).machine.env.get? v := by
  have hnot : ¬p.Own f l₂ v := fun hown => hown.2 ⟨g, hg, hphi⟩
  rw [hj.frame v, P.back_env W.layout W.valid W.completes hnot htj (by omega)]
  rw [P.ends.1, Plan.after_guarded hg]
  intro hmem
  have := Func.destsAt_unique W.valid.once (Layout.mem_destsAt.mpr (Or.inl hmem)) (Layout.mem_destsAt.mpr (Or.inl hphi))
  exact W.layout.join_not_mem hg (by simp [this])

/-- The front gets to a block of the back only at the turn. -/
theorem turn_of_back (hsi : s ≤ i) (hit : i < t) (hb : p.Back l₂ (M (i + 1)).block) : i + 1 = t := by
  by_contra hne
  exact W.layout.not_back_of_front (P.front (i + 1) (by omega) (by omega)) hb

/-- The back gets behind the pair only at the end. -/
theorem end_of_after (htj : t ≤ j) (hje : j < e) (hb : (M (j + 1)).block = p.after) : j + 1 = e := by
  by_contra hne
  exact W.layout.after_not_back (hb ▸ P.back (j + 1) (by omega) (by omega))

omit W P in
theorem not_mem_destsAt_of_phi (hf : f.Valid) (hphi : v ∈ phiDests f b) (hne : c ≠ b) : v ∉ f.destsAt c := fun h =>
  hne (Func.destsAt_unique hf.once h (Layout.mem_destsAt.mpr (Or.inl hphi)))

omit W P in
/-- A phi keeps its value on an edge to another block. -/
theorem frame_of_phi (hf : f.Valid) {m m' : Moment} (hmove : m.Moves f m') (hphi : v ∈ phiDests f b) (hne : m'.block ≠ b) :
    m'.machine.env.get? v = m.machine.env.get? v :=
  hmove.frame v fun h => not_mem_destsAt_of_phi hf hphi hne (Layout.mem_destsAt.mpr (Or.inl h))

/-- Induction variables that agree when both parties leave agree behind the pair. -/
theorem unified_end (hi : (M i).Moves f (M t)) (hj : (M j).Moves f (M e)) (htj : t ≤ j) (hje : j < e)
    (h : (M j).machine.env.get? p.second.induction = (M i).machine.env.get? p.first.induction) :
    (M e).machine.env.get? p.second.induction = (M e).machine.env.get? p.first.induction := by
  have L := W.layout
  have hown : ¬p.Own f l₂ p.first.induction := Crossing.not_own_of_front L W.valid (Or.inl L.header₁_mem)
    (Layout.mem_destsAt.mpr (Or.inl L.induction₁_mem))
  have hturn : p.turn ≠ p.first.header := fun h => L.not_back_of_front (Or.inl (h ▸ L.header₁_mem)) Layout.turn_back
  rw [frame_of_phi W.valid hj L.induction₂_mem fun h => L.after_not_back (P.ends.1 ▸ h ▸ Or.inl L.header₂_mem),
    frame_of_phi W.valid hj L.induction₁_mem fun h => W.after_out₁ (P.ends.1 ▸ h ▸ L.header₁_mem),
    P.back_env L W.valid W.completes hown htj hje, frame_of_phi W.valid hi L.induction₁_mem (P.turns.1 ▸ hturn)]
  exact h

/-- On the edge that leads behind the pair, the fused run gets to the run. -/
theorem hop_end {term : Terminator} {m : Machine} (hi : (M i).Moves f (M t)) (hit : i + 1 = t) (hj : (M j).Moves f (M e))
    (hje : j + 1 = e) (hsi : s ≤ i) (htj : t ≤ j) (hc : (p.splice f).Live c) (ht : f.term? c = some term)
    (hrun : F.runInstrs limit ((p.bodySources c).flatMap (p.code f)) = .ok F₁)
    (hF : Crossing.Blended (p.Wanted f) f l₂ p M t i j F₁) (hgoto : m.transfer c term = .ok (.goto n))
    (hshow : ∀ o ∈ term.operands, (blend f l₂ p M t i j).Shows (Snapshot.standIn p) m o) (hnext : p.redirect c n = p.after)
    (hafter : Receives f p M (blend f l₂ p M t i j) (M e).machine.store c p.after j)
    (hguard : ∀ g, p.guards = some g → p.sourceName (M i).block = c)
    (hunified : p.unify = true → f.AvailableOut p.after p.second.induction →
      (M e).machine.env.get? p.second.induction = (M e).machine.env.get? p.first.induction) :
    ∃ F', (p.apply f).Hops limit F (p.label f c) F' (p.label f p.after) ∧ Apart f p M e F' := by
  have L := W.layout
  have C := W.completes
  obtain ⟨ρ, hnamed⟩ := hF.named
  obtain ⟨henv, hcell, hmade⟩ := P.blend_end L W.valid C hi hit hj hje htj
  have hlive : (p.splice f).Live p.after :=
    (L.live_splice (P.ends.1 ▸ C.live W.valid.once P.le)).1 W.after_not_late
  have hphis : ∀ b v, p.after = p.phiHome b → v ∈ phiDests f b → p.Wanted f v →
      b ∈ [p.turn, p.after] ∧ ∃ k, Receives f p M (blend f l₂ p M t i j) (M e).machine.store c b k := by
    intro b v hb _ _
    rcases W.phiHome_after hb with rfl | ⟨g, hg, rfl⟩
    · exact ⟨by simp, j, hafter⟩
    · have hturn := Plan.turn_guarded hg
      have hblock : (M (i + 1)).block = g.second := by rw [hit, P.turns.1, hturn]
      refine ⟨by simp [hturn], i, hblock ▸ W.receives_front P hsi (by omega) (hit ▸ hi) (hguard g hg) fun v hv _ => ?_⟩
      rw [hit]
      exact W.env_guardPhi P hj hje htj hg (hblock ▸ hv)
  have hframe : ∀ v, p.Wanted f v → (∀ b, p.after = p.phiHome b → v ∉ phiDests f b) →
      (M e).machine.store.env v = (blend f l₂ p M t i j).env v := by
    intro v _ hnot
    refine henv v (hnot _ (Layout.phiHome_kept fun h => W.after_not_late (Or.inl h)).symm) ?_
    rintro ⟨g, hg, hphi⟩
    exact hnot g.second (by rw [L.phiHome_guard₂ hg, Plan.after_guarded hg]) hphi
  have histeps := hi.steps
  have hjsteps := hj.steps
  rw [P.turns.1] at histeps
  rw [P.ends.1] at hjsteps
  have hFsteps := hF.steps
  have hlimit := C.steps_le P.le
  have hsum : ([p.turn, p.after].flatMap f.phisAt).length =
      (f.phisAt p.turn).length + (f.phisAt p.after).length := by simp
  obtain ⟨F', hhop, hnamed', hsteps⟩ := W.hops [p.turn, p.after] hc ht hrun hnamed hgoto hshow (hnext.symm ▸ hlive)
    (by rw [hnext]; exact hphis) (by rw [hnext]; exact hframe) hcell hmade (by omega)
  rw [hnext] at hhop
  refine ⟨F', hhop, ⟨by rw [P.ends.1]; exact P.ends.2, ⟨ρ, hnamed'⟩, by omega, ?_⟩⟩
  rw [P.ends.1]
  exact hunified

end FusedRun

end SsaFusion
