import SsaFusion.Proofs.Fusion.Guards
import SsaFusion.Proofs.Fusion.Stages

/-!
# The fused run follows the run

Inside the pair, the fused run is at one of eight junctures (`Juncture`), which say in which blocks front and back are. From every
juncture it gets to a later one or behind the pair (`Juncture.step`), so that a crossing ends where the run is (`cross`). Outside
the pair the fused run is with the run all along. Together, it returns what the run returns (`returns`).
-/

namespace SsaFusion

open Plan (phiDests bodyDests)

namespace Layout

variable {f : Func} {l₁ l₂ : Loop} {p : Plan} {a b c n : BlockId} {v : ValueId} (L : Layout f l₁ l₂ p)

include L

/-! ## Where phis stand -/

theorem phiHome_plain (hhead : c ≠ p.first.header) (hguards : ∀ g, p.guards = some g → c ≠ g.join ∧ c ≠ p.second.exit)
    (h : c = p.phiHome b) : b = c := by
  rcases L.phiHome_inv h with h | ⟨-, h⟩ | ⟨g, hg, ⟨-, h⟩ | ⟨-, h⟩⟩
  · exact h
  · exact absurd h hhead
  · exact absurd h (hguards g hg).1
  · exact absurd h (hguards g hg).2

theorem phiHome_header₁ (h : p.first.header = p.phiHome b) : b = p.first.header ∨ b = p.second.header := by
  rcases L.phiHome_inv h with h | ⟨h, -⟩ | ⟨g, hg, ⟨-, h⟩ | ⟨-, h⟩⟩
  · exact Or.inl h
  · exact Or.inr h
  · exact absurd h.symm (L.join_ne_header₁ hg)
  · exact absurd (h ▸ L.header₁_mem) L.exit₂_out.1

theorem phiHome_exit₂ (h : p.second.exit = p.phiHome b) :
    b = p.second.exit ∨ ∃ g, p.guards = some g ∧ b = p.first.exit := by
  rcases L.phiHome_inv h with h | ⟨-, h⟩ | ⟨g, hg, ⟨-, h⟩ | ⟨h, -⟩⟩
  · exact Or.inl h
  · exact absurd (h ▸ L.header₁_mem) L.exit₂_out.1
  · exact absurd h fun h => L.join_not_mem hg (by simp [h])
  · exact Or.inr ⟨g, hg, h⟩

theorem phiHome_first (hc : c ∈ l₁.blocks) (hne : c ≠ p.first.header) (h : c = p.phiHome b) : b = c :=
  L.phiHome_plain hne (fun _ hg => ⟨(L.apart hg (Or.inl hc)).2.2.1, (L.apart hg (Or.inl hc)).2.2.2.2⟩) h

theorem phiHome_inner (hc : p.Inner l₂ c) (h : c = p.phiHome b) : b = c :=
  L.phiHome_plain (fun e => L.disjoint L.header₁_mem (e ▸ hc.1))
    (fun _ hg => ⟨(L.apart hg (Or.inr (Or.inl hc.1))).2.2.1, (L.apart hg (Or.inr (Or.inl hc.1))).2.2.2.2⟩) h

theorem phiHome_preheader₁ (h : p.first.preheader = p.phiHome b) : b = p.first.preheader :=
  L.phiHome_plain (fun e => L.preheader₁_out.1 (e ▸ L.header₁_mem))
    (fun _ hg => ⟨(L.apart hg (Or.inr (Or.inr (Or.inl rfl)))).2.2.1, (L.apart hg (Or.inr (Or.inr (Or.inl rfl)))).2.2.2.2⟩) h

theorem phis_latch₁ (h : p.first.latch ≠ p.first.header) : f.phisAt p.first.latch = [] :=
  Snapshot.phisAt_of_withoutPhis (L.plan.code.latch₁ h)

theorem phis_latch₂ (h : p.second.latch ≠ p.second.header) : f.phisAt p.second.latch = [] :=
  Snapshot.phisAt_of_withoutPhis (L.plan.code.latch₂ h)

theorem phis_preheader₂ : f.phisAt p.second.preheader = [] :=
  Snapshot.phisAt_of_withoutPhis L.plan.code.preheader₂

/-! ## Which edges stay -/

theorem inner_uncut (hn : p.Inner l₂ n) : ¬p.Cut a n := by
  rintro (⟨-, h⟩ | ⟨g, hg, -, h⟩ | ⟨first, last, -, ⟨-, h⟩ | ⟨-, h⟩⟩)
  · exact L.exit₁_out.2 (h ▸ hn.1)
  · exact L.guard₂_out₂ hg (h ▸ hn.1)
  · exact L.disjoint L.latch₁_mem (h ▸ hn.1)
  · exact hn.2.2 h

theorem splice_live (hb : f.Live b) (hkept : ¬p.Removed b) : (p.splice f).Live b := by
  rw [← bodyHome_kept hkept]
  exact L.live_bodyHome.mpr hb

end Layout

namespace Machine

theorem runInstrs_two {F F₁ F₂ : Machine} {limit : Nat} {is js : List Instr} (h : F.runInstrs limit is = .ok F₁)
    (h' : F₁.runInstrs limit js = .ok F₂) : F.runInstrs limit (is ++ js) = .ok F₂ := by
  rw [runInstrs_append, h]
  exact h'

end Machine

namespace FusedRun

variable {f : Func} {l₁ l₂ : Loop} {p : Plan} {args : List Word} {limit N i j j' s t e : Nat} {M : Nat → Moment} {r : RunResult}
variable {b c n : BlockId} {v : ValueId} {F F₁ : Machine}
variable (W : FusedRun f l₁ l₂ p args limit M N r) (P : Crossing f l₁ l₂ p M N s t e)

include W P

/-- The fused run goes on to the block to which the front goes. -/
theorem hop_front (hi : (M i).EndsAt f c) (hj : Lands f M j j') (hsi : s ≤ i) (hit : i + 1 < t) (htj : t ≤ j) (hje : j' < e)
    (hkept : ¬p.Removed c) (hrun : F.runInstrs limit ((p.bodySources c).flatMap (p.code f)) = .ok F₁)
    (hF : Crossing.Blended (p.Wanted f) f l₂ p M t i j F₁) (hn : p.redirect c (M (i + 1)).block = n) (hlive : f.Live n)
    (hkept' : ¬p.Removed n)
    (hphis : ∀ b v, n = p.phiHome b → v ∈ phiDests f b →
      b = (M (i + 1)).block ∨ b ∈ landed M j j' ∧ p.sourceName (M j).block = c)
    (hhome : ∀ b, b = (M (i + 1)).block ∨ b ∈ landed M j j' → f.phisAt b = [] ∨ n = p.phiHome b)
    (hreads : ∀ b ∈ landed M j j', Sources f l₂ p M t i j b) :
    ∃ F', (p.apply f).Hops limit F (p.label f c) F' (p.label f n) ∧
      Crossing.Blended (p.Wanted f) f l₂ p M t (i + 1) j' F' := by
  have L := W.layout
  have hiN : i < N := by have := P.le; have := P.turn_lt; omega
  have hmove := W.completes.moves_of_ends W.valid.once hiN hi
  obtain ⟨term, ht, hgoto⟩ := hmove.transfer
  have hc := L.splice_live (hi.1 ▸ W.completes.live W.valid.once hiN.le) hkept
  have hsource : p.sourceName (M i).block = c := by rw [hi.1, L.sourceName_kept hkept]
  have hjj : j ≤ j' := by rcases hj with rfl | ⟨rfl, -⟩ <;> omega
  have hmem : ∀ b, b ∈ landed M i (i + 1) ↔ b = (M (i + 1)).block := fun b => by rw [landed_succ, List.mem_singleton]
  have hphis' : ∀ b v, p.redirect c (M (i + 1)).block = p.phiHome b → v ∈ phiDests f b → p.Wanted f v →
      b ∈ landed M i (i + 1) ∧ p.sourceName (M i).block = c ∨ b ∈ landed M j j' ∧ p.sourceName (M j).block = c :=
    fun b v hb hv _ => (hphis b v (hn ▸ hb) hv).imp_left fun h => ⟨(hmem b).mpr h, hsource⟩
  have hhome' : ∀ b, b ∈ landed M i (i + 1) ∨ b ∈ landed M j j' →
      f.phisAt b = [] ∨ p.redirect c (M (i + 1)).block = p.phiHome b :=
    fun b hb => hn.symm ▸ hhome b (hb.imp_left (hmem b).mp)
  have hnext : (p.splice f).Live (p.redirect c (M (i + 1)).block) := hn.symm ▸ L.splice_live hlive hkept'
  obtain ⟨F', hhop, hF'⟩ := W.hop_inside P (.go hmove) hj (by omega) hsi hit htj hje hc (hi.1 ▸ ht) hrun hF (hi.1 ▸ hgoto)
    (fun o ho => W.decides_front P hsi (by omega) ht ho) hnext hphis' hhome' hreads
  exact ⟨F', hn ▸ hhop, hF'⟩

/-- The fused run goes on to the block to which the back goes. -/
theorem hop_back (hj : (M j).EndsAt f c) (hsi : s ≤ i) (hit : i < t) (htj : t ≤ j) (hje : j + 1 < e) (hkept : ¬p.Removed c)
    (hrun : F.runInstrs limit ((p.bodySources c).flatMap (p.code f)) = .ok F₁)
    (hF : Crossing.Blended (p.Wanted f) f l₂ p M t i j F₁)
    (hdecide : ∀ term, f.term? c = some term → ∀ v ∈ valuesOf term.operands, f.AvailableOut c v → ¬p.GuardPhi f v →
      (blend f l₂ p M t i j).env (Snapshot.standIn p v) = (M j).machine.env.get? v)
    (hn : p.redirect c (M (j + 1)).block = n) (hlive : f.Live n) (hkept' : ¬p.Removed n)
    (hphis : ∀ b v, n = p.phiHome b → v ∈ phiDests f b → b = (M (j + 1)).block)
    (hhome : f.phisAt (M (j + 1)).block = [] ∨ n = p.phiHome (M (j + 1)).block)
    (hreads : Sources f l₂ p M t i j (M (j + 1)).block) :
    ∃ F', (p.apply f).Hops limit F (p.label f c) F' (p.label f n) ∧
      Crossing.Blended (p.Wanted f) f l₂ p M t i (j + 1) F' := by
  have L := W.layout
  have hjN : j < N := by have := P.le; omega
  have hmove := W.completes.moves_of_ends W.valid.once hjN hj
  obtain ⟨term, ht, hgoto⟩ := hmove.transfer
  rw [hj.1] at ht hgoto
  have hback : p.Back l₂ c := hj.1 ▸ P.back j htj (by omega)
  have hc := L.splice_live (L.live_of_back hback) hkept
  have hsource : p.sourceName (M j).block = c := by rw [hj.1, L.sourceName_kept hkept]
  have hmem : ∀ b, b ∈ landed M j (j + 1) ↔ b = (M (j + 1)).block := fun b => by rw [landed_succ, List.mem_singleton]
  have hnone : ∀ b, b ∉ landed M i i := fun b => by simp [landed_same]
  have hshow : ∀ o ∈ term.operands, (blend f l₂ p M t i j).Shows (Snapshot.standIn p) (M j).machine o := by
    refine fun o ho => Store.shows_of_env fun v hov y hy => ?_
    have hv : v ∈ valuesOf term.operands := List.mem_filterMap.mpr ⟨o, ho, by rw [hov]; rfl⟩
    refine (hdecide term ht v hv (W.valid.termReads _ (L.live_of_back hback) term ht v hv) fun hguard => ?_).trans hy
    obtain ⟨g, hg, hphi, hclosed⟩ := W.joinClosed_of_guardPhi hguard (L.wanted_of_term W.valid hc ht v hv)
    exact L.guardPhi_not_decides hg hclosed hphi hback ht hv
  have hphis' : ∀ b v, p.redirect c (M (j + 1)).block = p.phiHome b → v ∈ phiDests f b → p.Wanted f v →
      b ∈ landed M i i ∧ p.sourceName (M i).block = c ∨ b ∈ landed M j (j + 1) ∧ p.sourceName (M j).block = c :=
    fun b v hb hv _ => Or.inr ⟨(hmem b).mpr (hphis b v (hn ▸ hb) hv), hsource⟩
  have hhome' : ∀ b, b ∈ landed M i i ∨ b ∈ landed M j (j + 1) →
      f.phisAt b = [] ∨ p.redirect c (M (j + 1)).block = p.phiHome b := by
    intro b hb
    rw [(hmem b).mp (hb.resolve_left (hnone b)), hn]
    exact hhome
  have hnext : (p.splice f).Live (p.redirect c (M (j + 1)).block) := hn.symm ▸ L.splice_live hlive hkept'
  obtain ⟨F', hhop, hF'⟩ := W.hop_inside P .same (.go hmove) (by omega) hsi hit htj hje hc ht hrun hF hgoto hshow hnext hphis'
    hhome' fun b hb => (hmem b).mp hb ▸ hreads
  exact ⟨F', hn ▸ hhop, hF'⟩

end FusedRun

/-! ## Junctures -/

/-- Where front and back are when the fused run is at the start of a block. -/
inductive Juncture (f : Func) (l₁ l₂ : Loop) (p : Plan) (M : Nat → Moment) (N s t e : Nat) : Nat → Nat → BlockId → Prop
  /-- At both guards. -/
  | guard {g : GuardShape} : p.guards = some g → Juncture f l₁ l₂ p M N s t e s t g.first
  /-- At both preheaders. -/
  | preheader {i j : Nat} : s ≤ i → i < t → t ≤ j → j < e → (M i).StartsAt f p.first.preheader →
      (M j).StartsAt f p.second.preheader → (∀ k, t ≤ k → k < j → (M k).access? f = none) →
      Juncture f l₁ l₂ p M N s t e i j p.first.preheader
  /-- In a round of the first loop, where the second has no body and waits. -/
  | solo {a₁ x₁ a₂ x₂ i j : Nat} {b : BlockId} : Abreast f l₁ l₂ p M N s t e a₁ x₁ a₂ x₂ i j → p.second.body = none →
      (M i).StartsAt f b → (M j).StartsAt f p.second.header → Juncture f l₁ l₂ p M N s t e i j b
  /-- At both headers, where the second loop has a body. -/
  | head {a₁ x₁ a₂ x₂ i j : Nat} {first last : BlockId} : Abreast f l₁ l₂ p M N s t e a₁ x₁ a₂ x₂ i j →
      p.second.body = some (first, last) → (M i).StartsAt f p.first.header → (M j).StartsAt f p.second.header →
      Juncture f l₁ l₂ p M N s t e i j p.first.header
  /-- In the first body, with the second header done. -/
  | early {a₁ x₁ a₂ x₂ i j : Nat} {b first last : BlockId} : Abreast f l₁ l₂ p M N s t e a₁ x₁ a₂ x₂ i j →
      p.second.body = some (first, last) → (M i).StartsAt f b → b ≠ p.first.header → b ≠ p.first.latch →
      (M j).EndsAt f p.second.header → Visit.Behind f l₂ M t a₂ x₂ j ((M i).rounds l₁.header) →
      Juncture f l₁ l₂ p M N s t e i j b
  /-- In the second body, with the first one done. -/
  | inner {a₁ x₁ a₂ x₂ i j : Nat} {b first last : BlockId} : Abreast f l₁ l₂ p M N s t e a₁ x₁ a₂ x₂ i j →
      p.second.body = some (first, last) → (M i).StartsAt f p.first.latch → (M j).StartsAt f b → p.Inner l₂ b →
      Juncture f l₁ l₂ p M N s t e i j b
  /-- At both latches, with both bodies done. -/
  | late {a₁ x₁ a₂ x₂ i j : Nat} {first last : BlockId} : Abreast f l₁ l₂ p M N s t e a₁ x₁ a₂ x₂ i j →
      p.second.body = some (first, last) → (M i).StartsAt f p.first.latch → (M j).StartsAt f p.second.latch →
      Juncture f l₁ l₂ p M N s t e i j p.first.latch
  /-- At the exits of a guarded pair. -/
  | exit {i j : Nat} {g : GuardShape} : p.guards = some g → s ≤ i → i < t → t ≤ j → j < e → (M i).StartsAt f p.first.exit →
      (M j).StartsAt f p.second.exit → (p.unify = true →
        (M j).machine.env.get? p.second.induction = (M i).machine.env.get? p.first.induction) →
      Juncture f l₁ l₂ p M N s t e i j p.second.exit

/-- The fused run gets to a later juncture or behind the pair. -/
def Onward (f : Func) (l₁ l₂ : Loop) (p : Plan) (M : Nat → Moment) (N limit s t e i j : Nat) (c : BlockId) (F : Machine) : Prop :=
  (∃ i' j' c' F', i + j < i' + j' ∧ (p.apply f).Hops limit F (p.label f c) F' (p.label f c') ∧
    Juncture f l₁ l₂ p M N s t e i' j' c' ∧ Crossing.Blended (p.Wanted f) f l₂ p M t i' j' F') ∨
  ∃ F', (p.apply f).Hops limit F (p.label f c) F' (p.label f p.after) ∧ FusedRun.Apart f p M e F'

theorem Onward.of_le {f : Func} {l₁ l₂ : Loop} {p : Plan} {M : Nat → Moment} {N limit s t e i j i' j' : Nat} {c : BlockId}
    {F : Machine} (h : Onward f l₁ l₂ p M N limit s t e i' j' c F) (hle : i + j ≤ i' + j') :
    Onward f l₁ l₂ p M N limit s t e i j c F := by
  refine h.imp_left ?_
  rintro ⟨i'', j'', c', F', hlt, h⟩
  exact ⟨i'', j'', c', F', Nat.lt_of_le_of_lt hle hlt, h⟩

theorem Moment.EndsAt.or_ne {f : Func} {M : Moment} {b : BlockId} (h : M.EndsAt f b) (c : BlockId) :
    M.EndsAt f c ∨ M.block ≠ c := by
  by_cases e : b = c
  · exact Or.inl (e ▸ h)
  · exact Or.inr (h.1 ▸ e)

namespace FusedRun

variable {f : Func} {l₁ l₂ : Loop} {p : Plan} {args : List Word} {limit N i j k s t e a₁ x₁ a₂ x₂ : Nat} {M : Nat → Moment}
variable {r : RunResult} {b c n : BlockId} {v : ValueId} {F F₁ : Machine}
variable (W : FusedRun f l₁ l₂ p args limit M N r) (P : Crossing f l₁ l₂ p M N s t e)

include W

/-! ## Into the loops -/

/-- The induction variable of the second loop is not there before the loop. -/
theorem induction₂_not_available (hdom : f.Dominates b p.second.header) (hne : b ≠ p.second.header) :
    ¬f.AvailableOut b p.second.induction := by
  have hmem : p.second.induction ∈ f.destsAt p.second.header := Layout.mem_destsAt.mpr (Or.inl W.layout.induction₂_mem)
  rintro (hpar | ⟨d, hd, hvd⟩)
  · exact Func.not_mem_params W.valid.once hmem hpar
  · rw [Func.destsAt_unique W.valid.once hvd hmem] at hd
    exact hne (hd.antisymm hdom (W.layout.shape₂.live_header W.layout.loop₂)).symm

theorem induction₂_not_preheader₂ : ¬f.AvailableOut p.second.preheader p.second.induction :=
  W.induction₂_not_available (W.layout.shape₂.preheader_dominates_header W.layout.loop₂) fun h =>
    W.layout.preheader₂_out.2 (h ▸ W.layout.header₂_mem)

omit W in
/-- At both headers, the fused run is at a juncture. -/
theorem juncture_header (A : Abreast f l₁ l₂ p M N s t e a₁ x₁ a₂ x₂ i j) (hi : (M i).StartsAt f p.first.header)
    (hj : (M j).StartsAt f p.second.header) : Juncture f l₁ l₂ p M N s t e i j p.first.header := by
  cases hbody : p.second.body with
  | none => exact .solo A hbody hi hj
  | some body => exact .head A hbody hi hj

/-- The phis at the header of the fused loop were at both headers. -/
theorem hop_header (P : Crossing f l₁ l₂ p M N s t e) (hi : (M i).EndsAt f c) (hj : (M j).Moves f (M (j + 1))) (hsi : s ≤ i)
    (hit : i + 1 < t) (htj : t ≤ j) (hje : j + 1 < e) (hkept : ¬p.Removed c)
    (hrun : F.runInstrs limit ((p.bodySources c).flatMap (p.code f)) = .ok F₁)
    (hF : Crossing.Blended (p.Wanted f) f l₂ p M t i j F₁) (hhead₁ : (M (i + 1)).block = p.first.header)
    (hhead₂ : (M (j + 1)).block = p.second.header) (hsource : p.sourceName (M j).block = c)
    (hreads : Sources f l₂ p M t i j p.second.header) :
    ∃ F', (p.apply f).Hops limit F (p.label f c) F' (p.label f p.first.header) ∧
      Crossing.Blended (p.Wanted f) f l₂ p M t (i + 1) (j + 1) F' := by
  have L := W.layout
  have hmem : ∀ b, b ∈ landed M j (j + 1) ↔ b = p.second.header := fun b => by rw [landed_succ, List.mem_singleton, hhead₂]
  refine W.hop_front P hi (.go hj) hsi hit htj hje hkept hrun hF ?_ (L.shape₁.live_header L.loop₁)
    (L.kept_of_mem₁ L.header₁_mem) (fun b v hb _ => ?_) (fun b hb => Or.inr ?_) fun b hb => (hmem b).mp hb ▸ hreads
  · rw [hhead₁]
    exact Plan.redirect_of_not_cut L.header₁_uncut
  · rw [hhead₁, hmem]
    exact (L.phiHome_header₁ hb).imp_right fun h => ⟨h, hsource⟩
  · rw [hhead₁, hmem] at hb
    rcases hb with rfl | rfl
    · exact (Layout.phiHome_kept (L.kept_of_mem₁ L.header₁_mem)).symm
    · exact Layout.phiHome_header₂.symm

section Preheaders

variable (hsi : s ≤ i) (hit : i < t) (htj : t ≤ j) (hje : j < e)

include P hsi hit htj hje

/-- What the phis of the second header read at the end of the preheader is shown at the end of the first preheader. -/
theorem sources_preheader (hi : (M i).EndsAt f p.first.preheader) (hj : (M j).EndsAt f p.second.preheader) :
    Sources f l₂ p M t i j p.second.header := by
  have L := W.layout
  intro phi hphi d sources hop hw v hmem hav hnot
  refine P.back_shows L W.valid W.completes hsi hit htj hje (hi.or_ne _) hav hnot (fun hu => ?_) fun _ d hd hvd _ => ?_
  · obtain ⟨-, rfl⟩ := p.eq_of_unifies hu
    exact absurd (hj.1 ▸ hav) W.induction₂_not_preheader₂
  · have hstays : p.stays phi = true := by
      rw [Plan.stays, Instr.dest?, hop, Op.dest?, Option.any_some, hw.2]
      rfl
    have hout := (L.relocated W.valid).phis phi hphi hstays sources (phi.sources?_of_phi hop) _ hmem v rfl
      (Or.inr (Func.mem_dests.mpr ⟨_, hvd⟩))
    rw [hj.1, Snapshot.sourceHome, if_pos rfl] at hout
    exact absurd (L.splice_dominates W.valid hd hvd hout) (L.not_dominates_preheader₁ hd)

/-- From the preheaders, the fused run enters both loops. -/
theorem enter_loops (hi : (M i).EndsAt f p.first.preheader) (hj : (M j).EndsAt f p.second.preheader)
    (hquiet : ∀ k, t ≤ k → k ≤ j → (M k).access? f = none)
    (hrun : F.runInstrs limit ((p.bodySources p.first.preheader).flatMap (p.code f)) = .ok F₁)
    (hF : Crossing.Blended (p.Wanted f) f l₂ p M t i j F₁) :
    Onward f l₁ l₂ p M N limit s t e i j p.first.preheader F := by
  have L := W.layout
  have C := W.completes
  obtain ⟨x₁, x₂, V⟩ := P.exists_visit L W.valid C hsi hit htj hje hi hj hquiet
  have hlt₁ := V.stay₁.lt
  have hlt₂ := V.stay₂.lt
  have hle₁ := V.le₁
  have hle₂ := V.le₂
  have hle := P.le
  have hmove := C.moves_of_ends W.valid.once (show j < N by omega) hj
  obtain ⟨F', hhop, hF'⟩ := W.hop_header P hi hmove hsi (by omega) htj (by omega) (L.kept_of_early (Or.inr (Or.inl rfl))) hrun hF
    V.stay₁.enters.1 V.stay₂.enters.1 (hj.1 ▸ L.sourceName_preheader₂) (W.sources_preheader P hsi hit htj hje hi hj)
  have A : Abreast f l₁ l₂ p M N s t e (i + 1) x₁ (j + 1) x₂ (i + 1) (j + 1) := { V with
    ge₁ := Nat.le_refl _
    in₁ := hlt₁
    ge₂ := Nat.le_refl _
    in₂ := hlt₂
    rounds := V.stay₁.zero.trans V.stay₂.zero.symm }
  exact Or.inl ⟨i + 1, j + 1, _, F', by omega, hhop, juncture_header A V.stay₁.enters V.stay₂.enters, hF'⟩

/-- The fused run executes both preheaders and enters both loops. -/
theorem step_preheader (hi : (M i).StartsAt f p.first.preheader) (hj : (M j).StartsAt f p.second.preheader)
    (hquiet : ∀ k, t ≤ k → k < j → (M k).access? f = none) (hF : Crossing.Blended (p.Wanted f) f l₂ p M t i j F) :
    Onward f l₁ l₂ p M N limit s t e i j p.first.preheader F := by
  have L := W.layout
  have C := W.completes
  have hjN : j ≤ N := hje.le.trans P.le
  have hiN : i ≤ N := by have := P.turn_lt; have := P.le; omega
  have hquiet₂ : ∀ n ≤ (f.bodyAt p.second.preheader).length, (M (j + n)).access? f = none := fun n hn =>
    access?_of_movable W.valid C L.plan.code.movePreheader (C.code hjN hj hn).1 (C.code hjN hj hn).2.1
  obtain ⟨F₁, hrun₁, hF₁⟩ := W.runs_front P hsi hit htj hje.le hi
    (fun n _ c w _ m htm hmj => by rw [hquiet m htm hmj]; exact (Option.some_ne_none _).symm) hF
  have hends₁ := (C.code_ends hiN hi).2.1
  have hit' := P.code_front L C hsi hit hi (Nat.le_refl _)
  obtain ⟨F₂, hrun₂, hF₂⟩ := W.runs_back P (by omega) hit' htj hje hj (hends₁.or_ne _)
    (fun _ hav => absurd hav W.induction₂_not_preheader₂)
    (fun _ instr hmem v hr d hd hvd _ => absurd hr (L.preheader₂_not_reads W.valid hd hvd hmem))
    (fun n hn c w hacc => by rw [hquiet₂ n hn.le] at hacc; cases hacc) hF₁
  have hrun : F.runInstrs limit ((p.bodySources p.first.preheader).flatMap (p.code f)) = .ok F₂ := by
    rw [L.bodySources_preheader₁]
    simpa using Machine.runInstrs_two hrun₁ hrun₂
  refine (W.enter_loops P (by omega) hit' (by omega) (P.code_back L C htj hje hj (Nat.le_refl _)) hends₁
    (C.code_ends hjN hj).2.1 (fun k htk hkj => ?_) hrun hF₂).of_le (by omega)
  rcases Nat.lt_or_ge k j with hlt | hge
  · exact hquiet k htk hlt
  · obtain ⟨n, rfl⟩ := Nat.exists_eq_add_of_le hge
    exact hquiet₂ n (by omega)

end Preheaders

/-! ## Out of a round -/

section Latch

variable (A : Abreast f l₁ l₂ p M N s t e a₁ x₁ a₂ x₂ i j) (hi : (M i).EndsAt f p.first.latch) (hj : (M j).EndsAt f p.second.latch)

include A hi hj

/-- At the ends of both latches, both loops go on or both are left. -/
theorem latches_cases :
    (M i).Moves f (M (i + 1)) ∧ (M j).Moves f (M (j + 1)) ∧
      ((M (i + 1)).block = p.first.header ∧ (M (j + 1)).block = p.second.header ∧
          Abreast f l₁ l₂ p M N s t e a₁ x₁ a₂ x₂ (i + 1) (j + 1) ∨
        (M (i + 1)).block = p.first.exit ∧ (M (j + 1)).block = p.second.exit) := by
  have L := W.layout
  have C := W.completes
  obtain ⟨-, -, -, -, -, -, hx₁, hx₂⟩ := A.bounds
  have hin₁ := A.in₁
  have hin₂ := A.in₂
  have hge₁ := A.ge₁
  have hge₂ := A.ge₂
  have hagree := A.toVisit.latches_agree L W.valid C W.faithful A.ge₁ A.in₁ hi A.ge₂ A.in₂ hj A.rounds
  refine ⟨C.moves_of_ends W.valid.once (by omega) hi, C.moves_of_ends W.valid.once (by omega) hj, ?_⟩
  rcases A.stay₁.latch_cases C W.valid.once L.siblings.first L.shape₁ hx₁ A.ge₁ A.in₁ hi with ⟨hend₁, hb₁⟩ | ⟨hlt₁, hb₁, hr₁⟩
  · rcases A.stay₂.latch_cases C W.valid.once L.siblings.second L.shape₂ hx₂ A.ge₂ A.in₂ hj with ⟨-, hb₂⟩ | ⟨hlt₂, -, -⟩
    · exact Or.inr ⟨hb₁, hb₂⟩
    · have := hagree.mp hend₁
      omega
  · rcases A.stay₂.latch_cases C W.valid.once L.siblings.second L.shape₂ hx₂ A.ge₂ A.in₂ hj with ⟨hend₂, -⟩ | ⟨hlt₂, hb₂, hr₂⟩
    · have := hagree.mpr hend₂
      omega
    · refine Or.inl ⟨hb₁, hb₂, { A with
        ge₁ := by omega
        in₁ := hlt₁
        ge₂ := by omega
        in₂ := hlt₂
        rounds := ?_ }⟩
      rw [hr₁, hr₂, A.rounds]

omit hj in
/-- What the phis of the second header read at the end of the latch is shown at the end of the first latch. -/
theorem sources_latch : Sources f l₂ p M t i j p.second.header := by
  intro phi hphi d sources hop _ v hmem hav hnot
  refine A.shows W W.layout.header₂_mem (.of_source hphi (phi.sources?_of_phi hop) hmem) hav hnot fun _ d _ hvd hdom => ?_
  rw [hi.1, Func.availableBefore_end hi.2]
  exact Or.inr ⟨d, hdom, hvd⟩

/-- What the phis of the second exit read at the end of the latch is shown at the end of the first latch. -/
theorem sources_exit (hturn : p.guards = none → i + 1 = t) : Sources f l₂ p M t i j p.second.exit := by
  intro phi hphi d sources hop _ v hmem hav hnot
  obtain ⟨hsi, hit, htj, hje, -, hiN, -⟩ := A.bounds
  refine A.back_shows W.layout W.valid W.completes hsi hit htj hje (Or.inr (A.not_top W)) hav hnot
    (fun hu => A.induction_eq W (p.eq_of_unifies hu).1) fun hg d _ _ _ => ?_
  have hmove := (W.latches_cases A hi hj).1
  rw [hturn hg] at hmove
  refine hmove.frame v ?_
  rw [A.turns.1, Plan.turn_unguarded hg, W.layout.phis_preheader₂]
  exact List.not_mem_nil

section Edge

variable (hrun : F.runInstrs limit ((p.bodySources p.first.latch).flatMap (p.code f)) = .ok F₁)
variable (hF : Crossing.Blended (p.Wanted f) f l₂ p M t i j F₁)

include hrun hF

/-- The fused loop is left where both loops are, and the guarded pair has its exits still before it. -/
theorem leave_guarded {g : GuardShape} (hg : p.guards = some g) (hmove₁ : (M i).Moves f (M (i + 1)))
    (hmove₂ : (M j).Moves f (M (j + 1))) (hb₁ : (M (i + 1)).block = p.first.exit) (hb₂ : (M (j + 1)).block = p.second.exit) :
    Onward f l₁ l₂ p M N limit s t e i j p.first.latch F := by
  have L := W.layout
  obtain ⟨hsi, hit, htj, hje, -⟩ := A.bounds
  have hlt₁ : i + 1 < t := by
    refine Nat.lt_of_le_of_ne hit fun h => ?_
    have hback : p.Back l₂ (M (i + 1)).block := h ▸ A.turns.1 ▸ Layout.turn_back
    exact L.not_back_of_front (Or.inr (Or.inr ⟨g, hg, Or.inr hb₁⟩)) hback
  have hlt₂ : j + 1 < e := by
    refine Nat.lt_of_le_of_ne hje fun h => ?_
    have hafter : (M (j + 1)).block = p.after := by rw [h, A.ends.1]
    exact L.after_not_back (hafter ▸ Or.inr (Or.inr ⟨g, hg, Or.inr hb₂⟩))
  have hmem : ∀ b, b ∈ landed M j (j + 1) ↔ b = p.second.exit := fun b => by rw [landed_succ, List.mem_singleton, hb₂]
  have hphis : ∀ b v, p.second.exit = p.phiHome b → v ∈ phiDests f b →
      b = (M (i + 1)).block ∨ b ∈ landed M j (j + 1) ∧ p.sourceName (M j).block = p.first.latch := by
    intro b v hb _
    rw [hb₁, hmem, hj.1, L.sourceName_latch₂]
    rcases L.phiHome_exit₂ hb with h | ⟨-, -, h⟩
    · exact Or.inr ⟨h, rfl⟩
    · exact Or.inl h
  have hhome : ∀ b, b = (M (i + 1)).block ∨ b ∈ landed M j (j + 1) → f.phisAt b = [] ∨ p.second.exit = p.phiHome b := by
    intro b hb
    rw [hb₁, hmem] at hb
    rcases hb with rfl | rfl
    · exact Or.inr (L.phiHome_exit₁ hg).symm
    · exact Or.inr (Layout.phiHome_kept L.exit₂_kept).symm
  obtain ⟨F', hhop, hF'⟩ := W.hop_front A.toCrossing hi (.go hmove₂) hsi hlt₁ htj hlt₂ (L.kept_of_mem₁ L.latch₁_mem) hrun hF
    (hb₁ ▸ L.redirect_latch₁) (L.shape₂.live_exit L.loop₂) L.exit₂_kept hphis hhome
    fun b hb => (hmem b).mp hb ▸ W.sources_exit A hi hj fun h => by rw [hg] at h; cases h
  refine Or.inl ⟨i + 1, j + 1, _, F', by omega, hhop, .exit hg (by omega) hlt₁ (by omega) hlt₂ (hb₁ ▸ hmove₁.starts)
    (hb₂ ▸ hmove₂.starts) fun hu => ?_, hF'⟩
  rw [frame_of_phi W.valid hmove₂ L.induction₂_mem fun h => L.exit₂_out.2 (hb₂ ▸ h ▸ L.header₂_mem),
    frame_of_phi W.valid hmove₁ L.induction₁_mem fun h => L.exit₁_out.1 (hb₁ ▸ h ▸ L.header₁_mem)]
  exact A.induction_eq W hu

/-- The fused loop is left where both loops are, and the pair without guards lies behind it. -/
theorem leave_unguarded (hg : p.guards = none) (hmove₁ : (M i).Moves f (M (i + 1))) (hmove₂ : (M j).Moves f (M (j + 1)))
    (hb₁ : (M (i + 1)).block = p.first.exit) (hb₂ : (M (j + 1)).block = p.second.exit) :
    Onward f l₁ l₂ p M N limit s t e i j p.first.latch F := by
  have L := W.layout
  have C := W.completes
  obtain ⟨hsi, hit, htj, hje, -⟩ := A.bounds
  have hafter := (Plan.after_unguarded hg).symm
  have hturn := (L.unguarded hg).1.trans (Plan.turn_unguarded hg).symm
  have hit' : i + 1 = t := W.turn_of_back A.toCrossing hsi hit (hb₁ ▸ hturn ▸ Layout.turn_back)
  have hje' : j + 1 = e := W.end_of_after A.toCrossing htj hje (hb₂.trans hafter)
  have hreceives : Receives f p M (blend f l₂ p M t i j) (M e).machine.store p.first.latch p.after j := by
    rw [← hafter, ← hb₂]
    refine W.receives_back A.toCrossing htj hje hmove₂ (fun g h => by rw [hg] at h; cases h)
      (by rw [hj.1, L.sourceName_latch₂]) (fun v _ _ => by rw [hje']; rfl) ?_
    rw [hb₂]
    exact W.sources_exit A hi hj fun _ => hit'
  obtain ⟨term, ht, hgoto⟩ := hmove₁.transfer
  have hshow : ∀ o ∈ term.operands, (blend f l₂ p M t i j).Shows (Snapshot.standIn p) (M i).machine o := fun o ho =>
    W.decides_front A.toCrossing hsi hit ht ho
  rw [hi.1, hb₁] at hgoto
  have hlive := L.splice_live (L.loop₁.live_of_mem L.latch₁_mem) (L.kept_of_mem₁ L.latch₁_mem)
  exact Or.inr (W.hop_end A.toCrossing (hit' ▸ hmove₁) hit' (hje' ▸ hmove₂) hje' hsi htj hlive (hi.1 ▸ ht) hrun hF hgoto hshow
    (L.redirect_latch₁.trans hafter) hreceives (fun g h => by rw [hg] at h; cases h)
    fun hu _ => W.unified_end A.toCrossing (hit' ▸ hmove₁) (hje' ▸ hmove₂) htj hje (A.induction_eq W hu))

/-- At the ends of both latches, the fused run goes on to the next round or leaves the loop. -/
theorem leave_latch : Onward f l₁ l₂ p M N limit s t e i j p.first.latch F := by
  have L := W.layout
  obtain ⟨hsi, -, htj, -⟩ := A.bounds
  obtain ⟨hmove₁, hmove₂, ⟨hb₁, hb₂, A'⟩ | ⟨hb₁, hb₂⟩⟩ := W.latches_cases A hi hj
  · obtain ⟨-, hit', -, hje', -⟩ := A'.bounds
    obtain ⟨F', hhop, hF'⟩ := W.hop_header A.toCrossing hi hmove₂ hsi hit' htj hje' (L.kept_of_mem₁ L.latch₁_mem) hrun hF hb₁ hb₂
      (by rw [hj.1, L.sourceName_latch₂]) (W.sources_latch A hi)
    exact Or.inl ⟨i + 1, j + 1, _, F', by omega, hhop, juncture_header A' (hb₁ ▸ hmove₁.starts) (hb₂ ▸ hmove₂.starts), hF'⟩
  · cases hg : p.guards with
    | none => exact W.leave_unguarded A hi hj hrun hF hg hmove₁ hmove₂ hb₁ hb₂
    | some g => exact W.leave_guarded A hi hj hrun hF hg hmove₁ hmove₂ hb₁ hb₂

end Edge

end Latch

/-! ## Through a round -/

omit W in
/-- The back gets to a block without phis while the fused run stays where it is. -/
theorem blended_step (hj : (M j).Moves f (M (j + 1))) (hphis : f.phisAt (M (j + 1)).block = [])
    (hF : Crossing.Blended (p.Wanted f) f l₂ p M t i j F) : Crossing.Blended (p.Wanted f) f l₂ p M t i (j + 1) F := by
  have hland : Lands f M j (j + 1) := .go hj
  obtain ⟨ρ, hnamed⟩ := hF.named
  have hsteps := hF.steps
  have hjsteps := hj.steps
  refine ⟨⟨ρ, hnamed.congr (fun v _ => env_blend_lands .same hland fun b hb hv => ?_) (fun a _ n => cell_blend_lands .same hland a n)
    (made_blend_lands .same hland)⟩, by omega, fun a n hover => hF.reach a n (hland.overwritten ▸ hover)⟩
  rw [landed_same, landed_succ] at hb
  rw [List.mem_singleton.mp (hb.resolve_left List.not_mem_nil), phiDests, hphis] at hv
  cases hv

section Round

variable (A : Abreast f l₁ l₂ p M N s t e a₁ x₁ a₂ x₂ i j)

include A

theorem behind_header (hj : (M j).StartsAt f p.second.header) :
    Visit.Behind f l₂ M t a₂ x₂ j ((M i).rounds l₁.header) :=
  A.rounds ▸ A.toVisit.behind_of_header W.layout W.valid W.completes A.in₂ hj

/-- A block of the first loop but the latch leads to another block of the round. -/
theorem next_first (hi : (M i).EndsAt f b) (hb : b ≠ p.first.latch) :
    (M i).Moves f (M (i + 1)) ∧ Abreast f l₁ l₂ p M N s t e a₁ x₁ a₂ x₂ (i + 1) j ∧ (M (i + 1)).block ≠ p.first.header := by
  have L := W.layout
  obtain ⟨-, hit, -, -, -, hiN, -⟩ := A.bounds
  have hlt : i < N := by have := A.turn_lt; have := A.le; omega
  have hmove := W.completes.moves_of_ends W.valid.once hlt hi
  have hedge := hmove.edge
  have hmem := A.mem₁
  rw [hi.1] at hedge hmem
  have hin : (M (i + 1)).block ∈ l₁.blocks := by
    by_contra hout
    exact hb (L.shape₁.leave L.loop₁ hmem hedge hout).1
  have hne : (M (i + 1)).block ≠ p.first.header := by
    intro h
    rcases L.shape₁.into_header L.loop₁ (L.loop₁.live_of_mem hmem) (h ▸ hedge) with h | h
    · exact L.preheader₁_out.1 (h ▸ hmem)
    · exact hb h
  exact ⟨hmove, A.step₁ W hin hne, hne⟩

/-- The fused run follows the front to the next block of the first loop, while the back waits. -/
theorem follow_first (hi : (M i).EndsAt f b) (hb : b ≠ p.first.latch) (hstay : p.redirect b (M (i + 1)).block = (M (i + 1)).block)
    (hrun : F.runInstrs limit ((p.bodySources b).flatMap (p.code f)) = .ok F₁)
    (hF : Crossing.Blended (p.Wanted f) f l₂ p M t i j F₁) :
    ∃ F', (p.apply f).Hops limit F (p.label f b) F' (p.label f (M (i + 1)).block) ∧
      Crossing.Blended (p.Wanted f) f l₂ p M t (i + 1) j F' := by
  have L := W.layout
  obtain ⟨hsi, -, htj, hje, -⟩ := A.bounds
  obtain ⟨hmove, A', hne⟩ := W.next_first A hi hb
  have hmem := A.mem₁
  rw [hi.1] at hmem
  refine W.hop_front A.toCrossing hi .same hsi A'.bounds.2.1 htj hje (L.kept_of_mem₁ hmem) hrun hF hstay
    (L.loop₁.live_of_mem A'.mem₁) (L.kept_of_mem₁ A'.mem₁) (fun c v hc _ => Or.inl (L.phiHome_first A'.mem₁ hne hc))
    (fun c hc => Or.inr ?_) fun c hc => ?_
  · rw [landed_same] at hc
    rw [hc.resolve_right List.not_mem_nil]
    exact (Layout.phiHome_kept (L.kept_of_mem₁ A'.mem₁)).symm
  · rw [landed_same] at hc
    cases hc

/-- Where the second loop has no body, the fused run follows the first loop to its latch and executes the second loop there. -/
theorem step_solo (hbody : p.second.body = none) (hi : (M i).StartsAt f b) (hj : (M j).StartsAt f p.second.header)
    (hF : Crossing.Blended (p.Wanted f) f l₂ p M t i j F) : Onward f l₁ l₂ p M N limit s t e i j b F := by
  have L := W.layout
  have C := W.completes
  obtain ⟨-, -, -, hje, hjN, hiN, -⟩ := A.bounds
  obtain ⟨F₁, hrun₁, hF₁⟩ := A.runs₁ W hi (W.behind_header A hj) hF
  have A₁ := A.code₁ W hi (Nat.le_refl _)
  have hends₁ := (C.code_ends hiN hi).2.1
  by_cases hb : b = p.first.latch
  · subst hb
    obtain ⟨F₂, hrun₂, hF₂⟩ := A₁.runs_latch W hends₁ hj hF₁
    have A₂ := A₁.code₂ W hj (Nat.le_refl _)
    have hends₂ := (C.code_ends hjN hj).2.1
    by_cases hlatch : p.second.latch = p.second.header
    · refine (W.leave_latch A₂ hends₁ (hlatch ▸ hends₂) ?_ hF₂).of_le (by omega)
      rw [L.bodySources_latch₁_straight hbody, if_neg (not_not_intro hlatch)]
      simpa using Machine.runInstrs_two hrun₁ hrun₂
    · -- the second header goes on to its latch, which has no phis
      have hlt : j + (f.bodyAt p.second.header).length < N := A₂.bounds.2.2.2.1.trans_le A.le
      have hmove := C.moves_of_ends W.valid.once hlt hends₂
      have hedge := hmove.edge
      rw [hends₂.1, mem_successors_of_term (L.shape₂.straight hbody hlatch)] at hedge
      have hnext : (M (j + (f.bodyAt p.second.header).length + 1)).block = p.second.latch := List.mem_singleton.mp hedge
      have hstart := hmove.starts
      rw [hnext] at hstart
      have A₃ := A₂.step₂ W (hnext ▸ L.latch₂_mem) (hnext ▸ hlatch)
      obtain ⟨F₃, hrun₃, hF₃⟩ := A₃.runs_latch W hends₁ hstart (blended_step hmove (hnext ▸ L.phis_latch₂ hlatch) hF₂)
      refine (W.leave_latch (A₃.code₂ W hstart (Nat.le_refl _)) hends₁ (C.code_ends hlt hstart).2.1 ?_ hF₃).of_le (by omega)
      rw [L.bodySources_latch₁_straight hbody, if_pos hlatch]
      simpa using Machine.runInstrs_two hrun₁ (Machine.runInstrs_two hrun₂ hrun₃)
  · have hmem := A.mem₁
    rw [hi.1] at hmem
    obtain ⟨hmove, A', hne⟩ := W.next_first A₁ hends₁ hb
    have hhome : b ≠ p.headerHome := by rw [Plan.headerHome, hbody]; exact hb
    have hrun : F.runInstrs limit ((p.bodySources b).flatMap (p.code f)) = .ok F₁ := by
      rw [L.bodySources_first_plain hmem hhome hb, List.flatMap_singleton]
      exact hrun₁
    obtain ⟨F', hhop, hF'⟩ := W.follow_first A₁ hends₁ hb
      (Plan.redirect_of_not_cut (L.uncut (L.not_late_of_mem A'.mem₁) fun _ => hbody)) hrun hF₁
    exact Or.inl ⟨_, j, _, F', by omega, hhop, .solo A' hbody hmove.starts hj, hF'⟩

section Body

variable {first last : BlockId} (hbody : p.second.body = some (first, last))

include hbody

/-- With the second header done, the fused run follows the first loop up to its latch and then turns to the second body. -/
theorem leave_early (hi : (M i).EndsAt f b) (hb : b ≠ p.first.latch) (hj : (M j).EndsAt f p.second.header)
    (hbehind : Visit.Behind f l₂ M t a₂ x₂ j ((M i).rounds l₁.header))
    (hrun : F.runInstrs limit ((p.bodySources b).flatMap (p.code f)) = .ok F₁)
    (hF : Crossing.Blended (p.Wanted f) f l₂ p M t i j F₁) : Onward f l₁ l₂ p M N limit s t e i j b F := by
  have L := W.layout
  have C := W.completes
  obtain ⟨hsi, -, htj, hje, -⟩ := A.bounds
  obtain ⟨hmove, A', hne⟩ := W.next_first A hi hb
  have hmem := A.mem₁
  rw [hi.1] at hmem
  have hstart := hmove.starts
  by_cases hlatch : (M (i + 1)).block = p.first.latch
  · have hedge := hmove.edge
    rw [hi.1, hlatch] at hedge
    have hlast : b = p.first.last :=
      (L.shape₁.into_latch L.loop₁ (L.latch_ne_header hbody).1 (L.loop₁.live_of_mem hmem)).mp hedge
    -- the second header goes on to the body
    have hmove₂ := C.moves_of_ends W.valid.once (hje.trans_le A.le) hj
    have hedge₂ := hmove₂.edge
    rw [hj.1, mem_successors_of_term (L.shape₂.body _ _ hbody).2.1] at hedge₂
    have hfirst : (M (j + 1)).block = first := List.mem_singleton.mp hedge₂
    have hinner := L.inner_first hbody
    have hphis : f.phisAt first = [] := Snapshot.phisAt_of_withoutPhis (L.plan.code.body _ _ hbody).2.1
    have hstart₂ := hmove₂.starts
    rw [hfirst] at hstart₂
    have A₂ := A'.step₂ W (hfirst ▸ hinner.1) (hfirst ▸ hinner.2.1)
    have hredirect : p.redirect b (M (i + 1)).block = first := by rw [hlatch, hlast, L.redirect_last₁ hbody]
    have hnone : ∀ c, c = (M (i + 1)).block ∨ c ∈ landed M j (j + 1) → f.phisAt c = [] := by
      intro c hc
      rw [landed_succ, List.mem_singleton, hfirst, hlatch] at hc
      rcases hc with rfl | rfl
      · exact L.phis_latch₁ (L.latch_ne_header hbody).1
      · exact hphis
    obtain ⟨F', hhop, hF'⟩ := W.hop_front A.toCrossing hi (.go hmove₂) hsi A'.bounds.2.1 htj A₂.bounds.2.2.2.1
      (L.kept_of_mem₁ hmem) hrun hF hredirect (L.loop₂.live_of_mem hinner.1) (L.not_removed_of_inner hinner)
      (fun c v hc hv => by rw [L.phiHome_inner hinner hc, phiDests, hphis] at hv; cases hv) (fun c hc => Or.inl (hnone c hc))
      fun c hc phi hphi => by rw [hnone c (Or.inr hc)] at hphi; cases hphi
    exact Or.inl ⟨i + 1, j + 1, _, F', by omega, hhop, .inner A₂ hbody (hlatch ▸ hstart) hstart₂ hinner, hF'⟩
  · obtain ⟨F', hhop, hF'⟩ := W.follow_first A hi hb
      (Plan.redirect_of_not_cut (L.uncut (L.not_late_of_mem A'.mem₁) fun h => absurd h hlatch)) hrun hF
    have hrounds : (M (i + 1)).rounds l₁.header = (M i).rounds l₁.header := A'.rounds.trans A.rounds.symm
    exact Or.inl ⟨i + 1, j, _, F', by omega, hhop, .early A' hbody hstart hne hlatch hj (hrounds ▸ hbehind), hF'⟩

/-- The fused run executes both headers. -/
theorem step_head (hi : (M i).StartsAt f p.first.header) (hj : (M j).StartsAt f p.second.header)
    (hF : Crossing.Blended (p.Wanted f) f l₂ p M t i j F) : Onward f l₁ l₂ p M N limit s t e i j p.first.header F := by
  have L := W.layout
  have C := W.completes
  obtain ⟨-, -, -, -, hjN, hiN, -⟩ := A.bounds
  obtain ⟨F₁, hrun₁, hF₁⟩ := A.runs₁ W hi (W.behind_header A hj) hF
  have A₁ := A.code₁ W hi (Nat.le_refl _)
  have hends₁ := (C.code_ends hiN hi).2.1
  obtain ⟨F₂, hrun₂, hF₂⟩ := A₁.runs_header W hbody hends₁ hj hF₁
  refine (W.leave_early (A₁.code₂ W hj (Nat.le_refl _)) hbody hends₁ (L.latch_ne_header hbody).1.symm (C.code_ends hjN hj).2.1
    ((W.behind_header A₁ hj).extend fun m hjm hmj => ?_) ?_ hF₂).of_le (by omega)
  · obtain ⟨n, rfl⟩ := Nat.exists_eq_add_of_le hjm
    have hcode := C.code hjN hj (show n ≤ (f.bodyAt p.second.header).length by omega)
    exact access?_of_movable W.valid C (L.plan.code.body _ _ hbody).2.2.1 hcode.1 hcode.2.1
  · rw [L.bodySources_header₁ hbody]
    simpa using Machine.runInstrs_two hrun₁ hrun₂

/-- The fused run executes a block of the first body. -/
theorem step_early (hi : (M i).StartsAt f b) (hhead : b ≠ p.first.header) (hlatch : b ≠ p.first.latch)
    (hj : (M j).EndsAt f p.second.header) (hbehind : Visit.Behind f l₂ M t a₂ x₂ j ((M i).rounds l₁.header))
    (hF : Crossing.Blended (p.Wanted f) f l₂ p M t i j F) : Onward f l₁ l₂ p M N limit s t e i j b F := by
  have L := W.layout
  obtain ⟨-, -, -, -, -, hiN, -⟩ := A.bounds
  obtain ⟨F₁, hrun, hF₁⟩ := A.runs₁ W hi hbehind hF
  obtain ⟨-, hends, hrounds⟩ := W.completes.code_ends hiN hi
  have hmem := A.mem₁
  rw [hi.1] at hmem
  refine (W.leave_early (A.code₁ W hi (Nat.le_refl _)) hbody hends hlatch hj (hrounds ▸ hbehind) ?_ hF₁).of_le (by omega)
  rw [L.bodySources_first_plain hmem (Layout.headerHome_of_body hbody ▸ hhead) hlatch, List.flatMap_singleton]
  exact hrun

section Inner

variable (hi : (M i).StartsAt f p.first.latch) (hj : (M j).EndsAt f b) (hinner : p.Inner l₂ b)

include hi hj hinner

omit hbody in
/-- The terminator of a block of the second body decides as in the run. -/
theorem decides_inner {term : Terminator} (ht : f.term? b = some term) (hv : v ∈ valuesOf term.operands)
    (hav : f.AvailableOut b v) (hphi : ¬p.GuardPhi f v) :
    (blend f l₂ p M t i j).env (Snapshot.standIn p v) = (M j).machine.env.get? v := by
  refine A.shows W hinner.1 (.of_term ht hv) (hj.1 ▸ hav) hphi fun _ d hd hvd hdom => ?_
  exact W.available_latch hd hvd hi hinner hdom
    ((W.layout.relocated W.valid).innerTerm b hinner term ht v hv (Or.inr (Func.mem_dests.mpr ⟨d, hvd⟩)))

omit hbody in
/-- What the phis of the second body read inside it is shown at the start of the first latch. -/
theorem sources_inner (hn : p.Inner l₂ n) : Sources f l₂ p M t i j n := by
  intro phi hphi _ sources hop _ v hmem hav hnot
  have hs := phi.sources?_of_phi hop
  refine A.shows W hn.1 (.of_source hphi hs hmem) hav hnot fun _ d hd hvd hdom => ?_
  rw [hj.1] at hmem
  exact W.available_latch hd hvd hi hinner hdom
    ((W.layout.relocated W.valid).innerPhis n hn phi hphi sources hs _ hmem hinner v rfl (Or.inr (Func.mem_dests.mpr ⟨d, hvd⟩)))

/-- The fused run follows the second body up to its end and then turns to the latches. -/
theorem leave_inner (hrun : F.runInstrs limit ((p.bodySources b).flatMap (p.code f)) = .ok F₁)
    (hF : Crossing.Blended (p.Wanted f) f l₂ p M t i j F₁) : Onward f l₁ l₂ p M N limit s t e i j b F := by
  have L := W.layout
  obtain ⟨hsi, hit, htj, hje, -⟩ := A.bounds
  have hmove := W.completes.moves_of_ends W.valid.once (hje.trans_le A.le) hj
  have hedge := hmove.edge
  rw [hj.1] at hedge
  have hkept := L.not_removed_of_inner hinner
  have hdecide : ∀ term, f.term? b = some term → ∀ v ∈ valuesOf term.operands, f.AvailableOut b v → ¬p.GuardPhi f v →
      (blend f l₂ p M t i j).env (Snapshot.standIn p v) = (M j).machine.env.get? v := fun _ ht _ hv hav hphi =>
    W.decides_inner A hi hj hinner ht hv hav hphi
  have hstart := hmove.starts
  rcases L.inner_step hbody hinner hedge with hn | ⟨rfl, hn⟩
  · have A' := A.step₂ W hn.1 hn.2.1
    obtain ⟨F', hhop, hF'⟩ := W.hop_back A.toCrossing hj hsi hit htj A'.bounds.2.2.2.1 hkept hrun hF hdecide
      (Plan.redirect_of_not_cut (L.inner_uncut hn)) (L.loop₂.live_of_mem hn.1) (L.not_removed_of_inner hn)
      (fun c _ hc _ => L.phiHome_inner hn hc) (Or.inr (Layout.phiHome_kept (L.not_removed_of_inner hn)).symm)
      (W.sources_inner A hi hj hinner hn)
    exact Or.inl ⟨i, j + 1, _, F', by omega, hhop, .inner A' hbody hi hstart hn, hF'⟩
  · obtain ⟨hne₁, hne₂, -⟩ := L.latch_ne_header hbody
    have A' := A.step₂ W (hn ▸ L.latch₂_mem) (hn ▸ hne₂)
    rw [hn] at hstart
    have hnone : f.phisAt (M (j + 1)).block = [] := hn ▸ L.phis_latch₂ hne₂
    obtain ⟨F', hhop, hF'⟩ := W.hop_back A.toCrossing hj hsi hit htj A'.bounds.2.2.2.1 hkept hrun hF hdecide
      (hn ▸ L.redirect_last hbody) (L.loop₁.live_of_mem L.latch₁_mem) (L.kept_of_mem₁ L.latch₁_mem)
      (fun c v hc hv => by rw [L.phiHome_first L.latch₁_mem hne₁ hc, phiDests, L.phis_latch₁ hne₁] at hv; cases hv)
      (Or.inl hnone) fun phi hphi => by rw [hnone] at hphi; cases hphi
    exact Or.inl ⟨i, j + 1, _, F', by omega, hhop, .late A' hbody hi hstart, hF'⟩

end Inner

/-- The fused run executes a block of the second body. -/
theorem step_inner (hi : (M i).StartsAt f p.first.latch) (hj : (M j).StartsAt f b) (hinner : p.Inner l₂ b)
    (hF : Crossing.Blended (p.Wanted f) f l₂ p M t i j F) : Onward f l₁ l₂ p M N limit s t e i j b F := by
  obtain ⟨-, -, -, -, hjN, -⟩ := A.bounds
  obtain ⟨F₁, hrun, hF₁⟩ := A.runs_inner W hbody hi hj hinner hF
  refine (W.leave_inner (A.code₂ W hj (Nat.le_refl _)) hbody hi (W.completes.code_ends hjN hj).2.1 hinner ?_ hF₁).of_le (by omega)
  rw [W.layout.bodySources_inner hinner, List.flatMap_singleton]
  exact hrun

/-- The fused run executes both latches. -/
theorem step_late (hi : (M i).StartsAt f p.first.latch) (hj : (M j).StartsAt f p.second.latch)
    (hF : Crossing.Blended (p.Wanted f) f l₂ p M t i j F) : Onward f l₁ l₂ p M N limit s t e i j p.first.latch F := by
  have L := W.layout
  have C := W.completes
  obtain ⟨hsi, hit, htj, hje, hjN, hiN, -⟩ := A.bounds
  have hquiet : ∀ n < (f.bodyAt p.first.latch).length, (M (i + n)).access? f = none := fun n hn =>
    access?_of_movable W.valid C (L.plan.code.body _ _ hbody).2.2.2 (C.code hiN hi hn.le).1 (C.code hiN hi hn.le).2.1
  obtain ⟨F₁, hrun₁, hF₁⟩ := W.runs_front A.toCrossing hsi hit htj hje.le hi
    (fun n hn c w hacc => by rw [hquiet n hn] at hacc; cases hacc) hF
  have A₁ := A.code₁ W hi (Nat.le_refl _)
  have hends₁ := (C.code_ends hiN hi).2.1
  obtain ⟨F₂, hrun₂, hF₂⟩ := A₁.runs_latch W hends₁ hj hF₁
  refine (W.leave_latch (A₁.code₂ W hj (Nat.le_refl _)) hends₁ (C.code_ends hjN hj).2.1 ?_ hF₂).of_le (by omega)
  rw [L.bodySources_latch₁ hbody]
  simpa using Machine.runInstrs_two hrun₁ hrun₂

end Body

end Round

/-! ## Guards and exits -/

section Guarded

variable {g : GuardShape} (hg : p.guards = some g) (hsi : s ≤ i) (hit : i < t) (htj : t ≤ j) (hje : j < e)

include P hg hsi hit htj hje

/-- From the ends of both exits, the fused run gets behind the pair. -/
theorem leave_exit (hi : (M i).EndsAt f p.first.exit) (hj : (M j).EndsAt f p.second.exit)
    (hunified : p.unify = true → (M j).machine.env.get? p.second.induction = (M i).machine.env.get? p.first.induction)
    (hrun : F.runInstrs limit ((p.bodySources p.second.exit).flatMap (p.code f)) = .ok F₁)
    (hF : Crossing.Blended (p.Wanted f) f l₂ p M t i j F₁) : Onward f l₁ l₂ p M N limit s t e i j p.second.exit F := by
  have L := W.layout
  have C := W.completes
  have hle := P.le
  have hlt := P.turn_lt
  have hmove₁ := C.moves_of_ends W.valid.once (show i < N by omega) hi
  have hmove₂ := C.moves_of_ends W.valid.once (show j < N by omega) hj
  have hafter := (Plan.after_guarded hg).symm
  have hb₁ : (M (i + 1)).block = g.second := (L.mem_successors_exit₁ hg).mp (hi.1 ▸ hmove₁.edge)
  have hb₂ : (M (j + 1)).block = g.join := (L.mem_successors_exit₂ hg).mp (hj.1 ▸ hmove₂.edge)
  have hit' : i + 1 = t := W.turn_of_back P hsi hit (hb₁ ▸ Or.inr (Or.inr ⟨g, hg, Or.inl rfl⟩))
  have hje' : j + 1 = e := W.end_of_after P htj hje (hb₂.trans hafter)
  have hn := L.nodup_frame hg
  simp only [List.nodup_cons, List.mem_cons, not_or] at hn
  have htop : (M i).block ≠ p.top := by
    rw [hi.1, Plan.top_guarded hg]
    exact Ne.symm hn.1.2.1
  have hreceives : Receives f p M (blend f l₂ p M t i j) (M e).machine.store p.second.exit p.after j := by
    rw [← hafter, ← hb₂]
    refine W.receives_back P htj hje hmove₂ (fun g' hg' h => ?_) (by rw [hj.1, L.sourceName_kept L.exit₂_kept])
      (fun v _ _ => by rw [hje']; rfl) fun phi _ d sources _ _ v _ hav hnot => ?_
    · cases hg.symm.trans hg'
      exact hn.2.2.2.1.2.1 (h.2.symm.trans hj.1)
    · exact P.back_shows L W.valid C hsi hit htj hje (Or.inr htop) hav hnot (fun hu => hunified (p.eq_of_unifies hu).1)
        fun h => by rw [hg] at h; cases h
  have hgoto : (M j).machine.transfer p.second.exit (.jump g.join) = .ok (.goto g.join) := rfl
  have hlive := L.splice_live (L.shape₂.live_exit L.loop₂) L.exit₂_kept
  exact Or.inr (W.hop_end P (hit' ▸ hmove₁) hit' (hje' ▸ hmove₂) hje' hsi htj hlive (L.guards hg).exit₂ hrun hF hgoto
    (fun o ho => by cases ho) ((Plan.redirect_of_not_cut (L.join_uncut hg)).trans hafter) hreceives
    (fun _ _ => by rw [hi.1, L.sourceName_exit₁ hg])
    fun hu _ => W.unified_end P (hit' ▸ hmove₁) (hje' ▸ hmove₂) htj hje (hunified hu))

/-- The fused run executes both exits. -/
theorem step_exit (hi : (M i).StartsAt f p.first.exit) (hj : (M j).StartsAt f p.second.exit)
    (hunified : p.unify = true → (M j).machine.env.get? p.second.induction = (M i).machine.env.get? p.first.induction)
    (hF : Crossing.Blended (p.Wanted f) f l₂ p M t i j F) : Onward f l₁ l₂ p M N limit s t e i j p.second.exit F := by
  have L := W.layout
  have C := W.completes
  have hjN : j ≤ N := hje.le.trans P.le
  have hiN : i ≤ N := by have := P.turn_lt; have := P.le; omega
  have hn := L.nodup_frame hg
  simp only [List.nodup_cons, List.mem_cons, not_or] at hn
  have hquiet : ∀ n ≤ (f.bodyAt p.first.exit).length, (M (i + n)).access? f = none := fun n hn =>
    access?_of_movable W.valid C (L.plan.code.moveGuard g hg).2 (C.code hiN hi hn).1 (C.code hiN hi hn).2.1
  have hstable : ∀ {n}, n ≤ (f.bodyAt p.second.exit).length → p.unify = true →
      (M (j + n)).machine.env.get? p.second.induction =
        (M (i + (f.bodyAt p.first.exit).length)).machine.env.get? p.first.induction := by
    intro n hle hu
    rw [C.env_code W.valid.once hjN hj hle
        (not_mem_destsAt_of_phi W.valid L.induction₂_mem fun h => L.exit₂_out.2 (h ▸ L.header₂_mem)),
      C.env_code W.valid.once hiN hi (Nat.le_refl _)
        (not_mem_destsAt_of_phi W.valid L.induction₁_mem fun h => L.exit₁_out.1 (h ▸ L.header₁_mem))]
    exact hunified hu
  obtain ⟨F₁, hrun₁, hF₁⟩ := W.runs_front P hsi hit htj hje.le hi
    (fun n hn c w hacc => by rw [hquiet n hn.le] at hacc; cases hacc) hF
  have hends₁ := (C.code_ends hiN hi).2.1
  have hit' := P.code_front L C hsi hit hi (Nat.le_refl _)
  have hlt : i + (f.bodyAt p.first.exit).length < N := by have := P.turn_lt; have := P.le; omega
  have hmove := C.moves_of_ends W.valid.once hlt hends₁
  have hedge := hmove.edge
  rw [hends₁.1] at hedge
  have hturn := W.turn_of_back P (by omega) hit' (Or.inr (Or.inr ⟨g, hg, Or.inl ((L.mem_successors_exit₁ hg).mp hedge)⟩))
  have htop : (M (i + (f.bodyAt p.first.exit).length)).block ≠ p.top := by
    rw [hends₁.1, Plan.top_guarded hg]
    exact Ne.symm hn.1.2.1
  obtain ⟨F₂, hrun₂, hF₂⟩ := W.runs_back P (by omega) hit' htj hje hj (Or.inr htop)
    (fun hu _ n hn => hstable hn.le hu) (fun h => by rw [hg] at h; cases h)
    (fun n _ c w _ m hm hmt => by
      obtain rfl : m = i + (f.bodyAt p.first.exit).length := by omega
      rw [hquiet _ (Nat.le_refl _)]
      exact (Option.some_ne_none _).symm) hF₁
  refine (W.leave_exit P hg (by omega) hit' (by omega) (P.code_back L C htj hje hj (Nat.le_refl _)) hends₁
    (C.code_ends hjN hj).2.1 (hstable (Nat.le_refl _)) ?_ hF₂).of_le (by omega)
  rw [L.bodySources_exit₂ hg]
  simpa using Machine.runInstrs_two hrun₁ hrun₂

omit hsi hit htj hje P in
theorem standIn_guardPhi (hphi : Snapshot.standIn p v ∈ phiDests f g.second) : Snapshot.standIn p v = v := by
  have L := W.layout
  cases hu : p.unifies v with
  | true =>
    rw [Snapshot.standIn, if_pos hu] at hphi
    exact absurd (Func.destsAt_unique W.valid.once (Layout.mem_destsAt.mpr (Or.inl hphi))
      (Layout.mem_destsAt.mpr (Or.inl L.induction₁_mem)) ▸ L.header₁_mem) (L.guard₂_out₁ hg)
  | false => exact Layout.standIn_of_not_unifies hu

omit hsi hit htj hje P in
theorem induction₂_not_guard₂ : ¬f.AvailableOut g.second p.second.induction := by
  have L := W.layout
  refine W.induction₂_not_available ((L.guard₂_dominates_preheader₂ hg).trans (L.shape₂.preheader_dominates_header L.loop₂)) ?_
  rintro h
  exact L.guard₂_out₂ hg (h ▸ L.header₂_mem)

/-- What the phis of the join receive on the edge from the second guard, they receive in the fused run on the edge from the
first one. -/
theorem receives_join (hi : (M i).EndsAt f g.first) (hj : (M j).EndsAt f g.second) (hmove₁ : (M i).Moves f (M t))
    (hmove₂ : (M j).Moves f (M (j + 1))) (hb : (M (j + 1)).block = g.join) {s' : Store}
    (henv : ∀ v ∈ phiDests f g.join, p.Wanted f v → s'.env v = (M (j + 1)).machine.env.get? v) :
    Receives f p M (blend f l₂ p M t i j) s' g.first g.join j := by
  have L := W.layout
  have C := W.completes
  have hedge := hmove₂.edge
  rw [hj.1, hb] at hedge
  refine ⟨hmove₂, hb, by rw [hj.1, L.sourceName_guard₂ hg], henv, fun phi hphi d sources hop _ q hq hq₁ _ x hx => ?_⟩
  obtain ⟨a, o⟩ := q
  obtain rfl : a = g.second := hq₁.trans hj.1
  rw [Layout.sourceOperand_join hg]
  cases o with
  | lit l =>
    cases hx
    rfl
  | var v =>
    have hv := Machine.get?_of_read hx
    have hok := W.valid.phis _ ((L.live_guard₂ hg).step hedge) phi (Func.mem_instrsOf_of_phi hphi) sources (phi.sources?_of_phi hop)
    have hav := hok.reads _ hq (L.live_guard₂ hg) v rfl
    simp only [Plan.standInOperand, Operand.var?, Option.bind_some]
    cases hin : (Func.incomingFrom g.first ((f.phisAt g.second).map p.renamed)).get? (Snapshot.standIn p v) with
    | some o =>
      -- the operand is a phi of the second guard, and stands for what that phi receives from the first guard
      obtain ⟨i₂, hi₂, sources₂, q, hop₂, hfind, rfl⟩ := Layout.incoming_eq hin
      have hmem : Snapshot.standIn p v ∈ phiDests f g.second := List.mem_filterMap.mpr ⟨i₂, hi₂, by rw [Instr.dest?, hop₂]; rfl⟩
      rw [W.standIn_guardPhi hg hmem] at hop₂ hmem
      have hown : ¬p.Own f l₂ v := fun h => h.2 ⟨g, hg, hmem⟩
      obtain ⟨q', y, hfind', hy, hbound⟩ := hmove₁.bound i₂ (by rw [P.turns.1, Plan.turn_guarded hg]; exact hi₂) v sources₂ hop₂
      rw [hi.1, hfind] at hfind'
      cases hfind'
      rw [P.back_env L W.valid C hown htj hje, hbound] at hv
      cases hv
      have hok₂ := W.valid.phis _ (L.live_guard₂ hg) i₂ (Func.mem_instrsOf_of_phi hi₂) sources₂ (i₂.sources?_of_phi hop₂)
      have hq₂ : q.1 = g.first := by simpa using List.find?_some hfind
      rw [Option.getD_some, p.standInOperand_eq_through]
      refine (Store.shows_of_env fun w hw z hz => ?_) x hy
      have hav₂ := hok₂.reads q (List.mem_of_find?_eq_some hfind) (hq₂ ▸ L.live_guard₁ hg) w (by rw [hw]; rfl)
      exact (P.front_shows L W.valid hsi hit (by rw [hi.1, ← hq₂]; exact hav₂)).trans hz
    | none =>
      have hnot : ¬p.GuardPhi f v := by
        rintro ⟨g', hg', h⟩
        cases hg.symm.trans hg'
        obtain ⟨o, ho⟩ := L.incoming_isSome W.valid hg h
        have hne : g.second ≠ p.second.header := fun e => L.guard₂_out₂ hg (e ▸ L.header₂_mem)
        rw [L.standIn_eq W.valid (Or.inl ⟨hne, Layout.mem_destsAt.mpr (Or.inl h)⟩), ho] at hin
        cases hin
      refine (P.back_shows L W.valid C hsi hit htj hje (hi.or_ne _) (hj.1 ▸ hav) hnot (fun hu => ?_) fun h => ?_).trans hv
      · obtain ⟨-, rfl⟩ := p.eq_of_unifies hu
        exact absurd hav (W.induction₂_not_guard₂ hg)
      · rw [hg] at h
        cases h

/-- From the ends of both guards, the fused run gets to both preheaders or behind the pair. -/
theorem leave_guard (hi : (M i).EndsAt f g.first) (hj : (M j).EndsAt f g.second)
    (hquiet : ∀ k, t ≤ k → k ≤ j → (M k).access? f = none)
    (hrun : F.runInstrs limit ((p.bodySources g.first).flatMap (p.code f)) = .ok F₁)
    (hF : Crossing.Blended (p.Wanted f) f l₂ p M t i j F₁) : Onward f l₁ l₂ p M N limit s t e i j g.first F := by
  have L := W.layout
  have C := W.completes
  have hle := P.le
  have hlt := P.turn_lt
  have hmove₁ := C.moves_of_ends W.valid.once (show i < N by omega) hi
  have hmove₂ := C.moves_of_ends W.valid.once (show j < N by omega) hj
  have hkept : ¬p.Removed g.first := L.kept_of_early (Or.inr (Or.inr ⟨g, hg, rfl⟩))
  rcases W.guards_agree P hg hi hj hsi hit htj hje hmove₁ hmove₂ with ⟨hb₁, hb₂⟩ | ⟨hb₁, hb₂⟩
  · have hlt₁ : i + 1 < t := by
      refine Nat.lt_of_le_of_ne hit fun h => ?_
      exact L.not_back_of_front (Or.inr (Or.inl (h ▸ hb₁))) (P.turns.1 ▸ Layout.turn_back)
    have hlt₂ : j + 1 < e := by
      refine Nat.lt_of_le_of_ne hje fun h => ?_
      exact L.after_not_back (P.ends.1 ▸ Or.inr (Or.inl (h ▸ hb₂)))
    have hmem : ∀ b, b ∈ landed M j (j + 1) → f.phisAt b = [] := by
      intro b hb
      rw [landed_succ, List.mem_singleton, hb₂] at hb
      exact hb ▸ L.phis_preheader₂
    obtain ⟨F', hhop, hF'⟩ := W.hop_front P hi (.go hmove₂) hsi hlt₁ htj hlt₂ hkept hrun hF
      (by rw [hb₁]; exact Plan.redirect_of_not_cut (L.uncut L.preheader₁_not_late fun h =>
        absurd (h ▸ L.latch₁_mem) L.preheader₁_out.1))
      (L.shape₁.live_preheader L.loop₁) (L.kept_of_early (Or.inr (Or.inl rfl)))
      (fun b v hb _ => Or.inl ((L.phiHome_preheader₁ hb).trans hb₁.symm))
      (fun b hb => hb.elim (fun h => Or.inr (by rw [h, hb₁, Layout.phiHome_kept (L.kept_of_early (Or.inr (Or.inl rfl)))]))
        fun h => Or.inl (hmem b h))
      fun b hb phi hphi => by rw [hmem b hb] at hphi; cases hphi
    exact Or.inl ⟨i + 1, j + 1, _, F', by omega, hhop, .preheader (by omega) hlt₁ (by omega) hlt₂ (hb₁ ▸ hmove₁.starts)
      (hb₂ ▸ hmove₂.starts) fun k htk hkj => hquiet k htk (by omega), hF'⟩
  · have hafter := (Plan.after_guarded hg).symm
    have hit' : i + 1 = t := W.turn_of_back P hsi hit (hb₁ ▸ Or.inr (Or.inr ⟨g, hg, Or.inl rfl⟩))
    have hje' : j + 1 = e := W.end_of_after P htj hje (hb₂.trans hafter)
    have hreceives : Receives f p M (blend f l₂ p M t i j) (M e).machine.store g.first p.after j := hafter ▸
      W.receives_join P hg hsi hit htj hje hi hj (hit' ▸ hmove₁) hmove₂ hb₂ fun v _ _ => by rw [hje']; rfl
    have hunavailable : ¬f.AvailableOut p.after p.second.induction := by
      rw [← hafter]
      refine fun hav => W.induction₂_not_guard₂ hg (hav.of_step ((L.mem_successors_guard₂ hg).mpr (Or.inr rfl)) ?_)
      exact not_mem_destsAt_of_phi W.valid L.induction₂_mem fun h => L.join_out₂ hg (h ▸ L.header₂_mem)
    obtain ⟨term, ht, hgoto⟩ := hmove₁.transfer
    have hshow : ∀ o ∈ term.operands, (blend f l₂ p M t i j).Shows (Snapshot.standIn p) (M i).machine o := fun o ho =>
      W.decides_front P hsi hit ht ho
    rw [hi.1, hb₁] at hgoto
    exact Or.inr (W.hop_end P (hit' ▸ hmove₁) hit' (hje' ▸ hmove₂) hje' hsi htj (L.splice_live (L.live_guard₁ hg) hkept)
      (hi.1 ▸ ht) hrun hF hgoto hshow ((L.redirect_guard₁ hg).trans hafter) hreceives
      (fun _ _ => by rw [hi.1, L.sourceName_kept hkept]) fun _ hav => absurd hav hunavailable)

end Guarded

/-- The fused run executes both guards. -/
theorem step_guard (P : Crossing f l₁ l₂ p M N s t e) {g : GuardShape} (hg : p.guards = some g)
    (hF : Crossing.Blended (p.Wanted f) f l₂ p M t s t F) : Onward f l₁ l₂ p M N limit s t e s t g.first F := by
  have L := W.layout
  have C := W.completes
  have hle := P.le
  have hlt := P.turn_lt
  have hslt := P.start_lt
  have hi := P.starts
  have hj := P.turns
  rw [Plan.top_guarded hg] at hi
  rw [Plan.turn_guarded hg] at hj
  have htN : t ≤ N := by omega
  have hquiet : ∀ n ≤ (f.bodyAt g.second).length, (M (t + n)).access? f = none := fun n hn =>
    access?_of_movable W.valid C (L.plan.code.moveGuard g hg).1 (C.code htN hj hn).1 (C.code htN hj hn).2.1
  obtain ⟨F₁, hrun₁, hF₁⟩ := W.runs_front P (Nat.le_refl _) hslt (Nat.le_refl _) hlt.le hi
    (fun n _ c w _ m htm hmt => absurd hmt (by omega)) hF
  have hends₁ := (C.code_ends (by omega) hi).2.1
  have hit' := P.code_front L C (Nat.le_refl _) hslt hi (Nat.le_refl _)
  obtain ⟨F₂, hrun₂, hF₂⟩ := W.runs_back P (Nat.le_add_right _ _) hit' (Nat.le_refl _) hlt hj (Or.inl (Plan.top_guarded hg ▸ hends₁))
    (fun _ hav => absurd hav (W.induction₂_not_guard₂ hg)) (fun h => by rw [hg] at h; cases h)
    (fun n hn c w hacc => by rw [hquiet n hn.le] at hacc; cases hacc) hF₁
  refine (W.leave_guard P hg (Nat.le_add_right _ _) hit' (Nat.le_add_right _ _)
    (P.code_back L C (Nat.le_refl _) hlt hj (Nat.le_refl _)) hends₁ (C.code_ends htN hj).2.1 (fun k htk hkt => ?_) ?_ hF₂).of_le
    (by omega)
  · obtain ⟨n, rfl⟩ := Nat.exists_eq_add_of_le htk
    exact hquiet n (by omega)
  · rw [L.bodySources_guard₁ hg]
    simpa using Machine.runInstrs_two hrun₁ hrun₂

/-! ## Across the pair -/

section Crossing

variable (P : Crossing f l₁ l₂ p M N s t e)

include P

omit W in
theorem juncture_bounds (J : Juncture f l₁ l₂ p M N s t e i j c) : i < t ∧ j < e := by
  have := P.start_lt
  have := P.turn_lt
  cases J with
  | guard => omega
  | preheader _ hit _ hje => exact ⟨hit, hje⟩
  | solo A | head A | early A | inner A | late A => exact ⟨A.bounds.2.1, A.bounds.2.2.2.1⟩
  | exit _ _ hit _ hje => exact ⟨hit, hje⟩

/-- **From every juncture, the fused run gets on.** -/
theorem juncture_step (J : Juncture f l₁ l₂ p M N s t e i j c) (hF : Crossing.Blended (p.Wanted f) f l₂ p M t i j F) :
    Onward f l₁ l₂ p M N limit s t e i j c F := by
  cases J with
  | guard hg => exact W.step_guard P hg hF
  | preheader hsi hit htj hje hi hj hquiet => exact W.step_preheader P hsi hit htj hje hi hj hquiet hF
  | solo A hbody hi hj => exact W.step_solo A hbody hi hj hF
  | head A hbody hi hj => exact W.step_head A hbody hi hj hF
  | early A hbody hi hhead hlatch hj hbehind => exact W.step_early A hbody hi hhead hlatch hj hbehind hF
  | inner A hbody hi hj hinner => exact W.step_inner A hbody hi hj hinner hF
  | late A hbody hi hj => exact W.step_late A hbody hi hj hF
  | exit hg hsi hit htj hje hi hj hunified => exact W.step_exit P hg hsi hit htj hje hi hj hunified hF

/-- The fused run returns from a juncture if it does so from behind the pair. -/
theorem cross {values : List Datum}
    (hafter : ∀ F, Apart f p M e F → (p.apply f).Returns limit values F (p.label f p.after))
    (J : Juncture f l₁ l₂ p M N s t e i j c) (hF : Crossing.Blended (p.Wanted f) f l₂ p M t i j F) :
    (p.apply f).Returns limit values F (p.label f c) := by
  -- both parties only go forward
  induction hn : (t + e) - (i + j) using Nat.strongRecOn generalizing i j c F with
  | ind n ih =>
    rcases W.juncture_step P J hF with ⟨i', j', c', F', hlt, hhop, J', hF'⟩ | ⟨F', hhop, hapart⟩
    · have hbounds := juncture_bounds P J
      exact .hop hhop (ih _ (by omega) J' hF' rfl)
    · exact .hop hhop (hafter F' hapart)

omit W in
/-- At the top, the fused run is at a juncture. -/
theorem juncture_top : Juncture f l₁ l₂ p M N s t e s t p.top := by
  have hstart := P.starts
  have hturns := P.turns
  unfold Plan.top at hstart ⊢
  unfold Plan.turn at hturns
  cases hg : p.guards with
  | none =>
    rw [hg] at hstart hturns
    exact .preheader (Nat.le_refl _) P.start_lt (Nat.le_refl _) P.turn_lt hstart hturns fun k htk hkt => by omega
  | some g => exact .guard hg

/-- At the top, the fused run holds the blend of the start of front and back. -/
theorem blended_top (h : Apart f p M s F) : Crossing.Blended (p.Wanted f) f l₂ p M t s t F := by
  obtain ⟨ρ, hnamed⟩ := h.named
  obtain ⟨henv, hcell, hmade⟩ := P.blend_start W.layout W.valid W.completes
  refine ⟨⟨ρ, hnamed.congr (fun v _ => henv v) hcell hmade⟩, Nat.add_le_add_right h.steps _, ?_⟩
  rintro a n ⟨m, htm, hmt, -⟩
  omega

/-- Behind the pair is outside of it, or it is the top again. -/
theorem after_outside : p.Front l₁ p.after → p.after = p.top := by
  have L := W.layout
  obtain ⟨k, rfl, htk, hmove⟩ := P.last_back W.valid W.completes
  intro hfront
  by_contra hne
  have hback := P.back k htk (Nat.lt_succ_self k)
  have hedge := hmove.edge
  rw [P.ends.1] at hedge
  exact L.not_back_of_front (L.into_front hfront hne (L.live_of_back hback) hedge) hback

end Crossing

/-! ## The whole run -/

/-- **From where it is with the run, the fused run returns what the run returns.** -/
theorem returns (hplain : ∀ x ∈ r.values, ∀ ρ, x.rename ρ = some x) (hk : k ≤ N) (hback : ¬p.Back l₂ (M k).block)
    (hfront : p.Front l₁ (M k).block → (M k).block = p.top) (h : Apart f p M k F) :
    (p.apply f).Returns limit r.values F (p.label f (M k).block) := by
  induction hn : N - k using Nat.strongRecOn generalizing k F with
  | ind n ih =>
    by_cases htop : p.Front l₁ (M k).block
    · have hstart : (M k).StartsAt f p.top := hfront htop ▸ ⟨rfl, h.done⟩
      obtain ⟨t, e, P⟩ := exists_crossing W.layout W.valid W.completes hk hstart
      have hlt := P.start_lt.trans P.turn_lt
      have hle := P.le
      rw [hfront htop]
      refine W.cross P (fun F' h' => ?_) (juncture_top P) (W.blended_top P h)
      rw [← P.ends.1]
      exact ih (N - e) (by omega) hle (P.ends.1 ▸ W.layout.after_not_back) (P.ends.1 ▸ W.after_outside P) h' rfl
    · obtain ⟨hle, -, -⟩ := W.completes.code_ends hk ⟨rfl, h.done⟩
      rcases Nat.lt_or_ge (k + (f.bodyAt (M k).block).length) N with hlt | hge
      · obtain ⟨F', hhop, h', hback', hfront'⟩ := W.leave_outside htop hback hk h rfl hlt
        exact .hop hhop (ih _ (by omega) hlt hback' hfront' h' rfl)
      · exact W.return_outside htop hback hk h rfl hplain (by omega)

end FusedRun

end SsaFusion
