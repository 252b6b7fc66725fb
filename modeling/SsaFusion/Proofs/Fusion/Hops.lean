import SsaFusion.Proofs.Fusion.Fused
import SsaFusion.Proofs.Fusion.Interleaving

/-!
# One block of the fused run

The fused run goes from block to block. What it holds when it has run the code of a block, and what it is to hold on entering
the next one, are two stores; if the run of the original function tells what every wanted phi receives on the way (`Receives`),
then the fused run gets from one to the other (`hops`). Outside the pair both runs go through the same blocks, and the fused run
holds what the run holds (`Apart`).
-/

namespace SsaFusion

open Plan (phiDests bodyDests)

/-- A run that returns, of a function with a pair of loops, and the fused function that is to follow it. -/
structure FusedRun (f : Func) (l₁ l₂ : Loop) (p : Plan) (args : List Word) (limit : Nat) (M : Nat → Moment) (N : Nat)
    (r : RunResult) : Prop extends PairRun f l₁ l₂ p args limit M N r where
  fused : (p.apply f).Valid
  faithful : Faithful f l₁ l₂ p args limit

/-- The wanted phis of a block of the pair receive in the fused run what they receive in a step of the run. -/
structure Receives (f : Func) (p : Plan) (M : Nat → Moment) (s s' : Store) (c b : BlockId) (k : Nat) : Prop where
  moves : (M k).Moves f (M (k + 1))
  block : (M (k + 1)).block = b
  source : p.sourceName (M k).block = c
  env : ∀ v ∈ phiDests f b, p.Wanted f v → s'.env v = (M (k + 1)).machine.env.get? v
  read : ∀ i ∈ f.phisAt b, ∀ d sources, i.op = .phi d sources → p.Wanted f d → ∀ q ∈ sources, q.1 = (M k).block →
    Machine.Readable (p.Wanted f) (p.sourceOperand f b q) → ∀ x, (M k).machine.read q.2 = .ok x →
    s.read? (p.sourceOperand f b q) = some x

theorem Instr.sources?_of_phi (i : Instr) {d : ValueId} {sources : List (BlockId × Operand)} (h : i.op = .phi d sources) :
    i.sources? = some sources := by
  rw [Instr.sources?, h]
  rfl

theorem Func.mem_instrs_of_site {f : Func} {b : BlockId} {i : Instr} (h : i ∈ f.instrsOf b) : i ∈ f.instrs := by
  unfold instrsOf at h
  cases hblk : f.block? b with
  | none => rw [hblk] at h; cases h
  | some blk =>
    rw [hblk] at h
    exact List.mem_flatMap.mpr ⟨blk, List.mem_of_getElem? hblk, h⟩

namespace FusedRun

variable {f : Func} {l₁ l₂ : Loop} {p : Plan} {args : List Word} {limit N k : Nat} {M : Nat → Moment} {r : RunResult}
variable {b c n : BlockId} {v : ValueId} {F F₁ : Machine} {s s' : Store}
variable (W : FusedRun f l₁ l₂ p args limit M N r)

include W

/-- A phi of the second guard that is wanted is at a join that only the pair leads to. -/
theorem joinClosed {g : GuardShape} (hg : p.guards = some g) (hphi : v ∈ phiDests f g.second) (hw : p.Wanted f v) :
    Layout.JoinClosed f p g := by
  refine ⟨fun hentry => W.faithful.join g hg hentry v hphi hw.1, ?_⟩
  refine (W.layout.apply_valid W.valid).mp W.fused g hg ?_
  have hlive : (p.splice f).Live (p.phiHome g.second) := by
    rw [W.layout.phiHome_guard₂ hg]
    exact (W.layout.live_splice ((W.layout.live_guard₂ hg).step ((W.layout.mem_successors_guard₂ hg).mpr (Or.inr rfl)))).1
      (W.layout.join_not_late hg)
  obtain ⟨i, hi, hd⟩ := List.mem_filterMap.mp (W.layout.mem_phis_apply W.valid hlive hphi hw)
  exact ⟨i, Func.mem_instrs_of_site (Func.mem_instrsOf_of_phi hi), (p.apply f).isPhi_of_mem_phisAt hi, v, hphi, hd⟩

/-- The fused run goes from a block to the next one. -/
theorem hops {ρ : Nat → Option Nat} {t : Terminator} {m : Machine} (bs : List BlockId) (hc : (p.splice f).Live c)
    (ht : f.term? c = some t) (hrun : F.runInstrs limit ((p.bodySources c).flatMap (p.code f)) = .ok F₁)
    (hnamed : s.Named (p.Wanted f) ρ F₁) (hgoto : m.transfer c t = .ok (.goto n))
    (hshow : ∀ o ∈ t.operands, s.Shows (Snapshot.standIn p) m o) (hnext : (p.splice f).Live (p.redirect c n))
    (hphis : ∀ b v, p.redirect c n = p.phiHome b → v ∈ phiDests f b → p.Wanted f v →
      b ∈ bs ∧ ∃ k, Receives f p M s s' c b k)
    (hframe : ∀ v, p.Wanted f v → (∀ b, p.redirect c n = p.phiHome b → v ∉ phiDests f b) → s'.env v = s.env v)
    (hcell : ∀ a, s.made a → ∀ n, s'.cell a n = s.cell a n) (hmade : ∀ a, s'.made a ↔ s.made a)
    (hsteps : F₁.steps + 1 + (bs.flatMap f.phisAt).length ≤ limit) :
    ∃ F', (p.apply f).Hops limit F (p.label f c) F' (p.label f (p.redirect c n)) ∧ s'.Named (p.Wanted f) ρ F' ∧
      F'.steps ≤ F₁.steps + 1 + (bs.flatMap f.phisAt).length := by
  have L := W.layout
  obtain ⟨blk, hblk, hbody, hterm⟩ := L.block?_apply W.valid hc ht
  have hlen := L.length_phis_apply W.valid W.fused hnext fun b v hb hvb hw => (hphis b v hb hvb hw).1
  have hnext' : p.label f (p.redirect c n) < (p.apply f).blocks.length := by
    have hlt := W.valid.live_lt (L.live_of_splice hnext)
    obtain ⟨blk', hblk', -⟩ := L.block?_apply W.valid hnext (Func.term?_eq f (List.getElem?_eq_getElem hlt))
    exact (List.getElem?_eq_some_iff.mp hblk').1
  have hread : ∀ i ∈ (p.apply f).phisAt (p.label f (p.redirect c n)), ∀ d sources, i.op = .phi d sources → ∃ q x,
      sources.find? (·.1 == p.label f c) = some q ∧ Machine.Readable (p.Wanted f) q.2 ∧ s.read? q.2 = some x ∧
        s'.env d = some x := by
    intro i hi d sources hop
    obtain ⟨b, j, old, hb, hblive, hj, hop', hw, hsource⟩ := L.phi_apply W.valid hnext hi hop
    have hd : d ∈ phiDests f b := List.mem_filterMap.mpr ⟨j, hj, by rw [Instr.dest?, hop']; rfl⟩
    obtain ⟨-, k, R⟩ := hphis b d hb hd hw
    have hedge := R.moves.edge
    rw [R.block] at hedge
    obtain ⟨q, x, hfind, hx, hbound⟩ := R.moves.bound j (R.block ▸ hj) d old hop'
    obtain ⟨y, hfind', hreadable⟩ := hsource (M k).block q (R.source ▸ hc) hedge hfind
    rw [R.source] at hfind'
    have hq : q.1 = (M k).block := by simpa using List.find?_some hfind
    refine ⟨_, x, hfind', hreadable, ?_, (R.env d hd hw).trans hbound⟩
    exact R.read j hj d old hop' hw q (List.mem_of_find?_eq_some hfind) hq hreadable x hx
  have hframe' : ∀ v, p.Wanted f v → v ∉ phiDests (p.apply f) (p.label f (p.redirect c n)) → s'.env v = s.env v := by
    intro v hw hnot
    refine hframe v hw fun b hb hvb => hnot ?_
    rw [hb] at hnext ⊢
    exact L.mem_phis_apply W.valid hnext hvb hw
  obtain ⟨F', henter, hnamed', hsteps'⟩ := (hnamed.withSteps (F₁.steps + 1)).enter hnext'
    (Func.nodup_phiDests W.fused.once _) hread hframe' hcell hmade (show F₁.steps + 1 + _ ≤ limit by omega)
  change F'.steps = F₁.steps + 1 + _ at hsteps'
  refine ⟨F', ⟨blk, F₁, hblk, by rw [hbody]; exact hrun, by omega, ?_, henter⟩, hnamed', by omega⟩
  rw [hterm]
  exact hnamed.goto hshow (L.wanted_of_term W.valid hc ht) hgoto

/-! ## Outside the pair -/

omit W in
/-- The fused run is with the run, at the start of the same block. -/
structure Apart (f : Func) (p : Plan) (M : Nat → Moment) (k : Nat) (F : Machine) : Prop where
  done : (M k).done = (f.phisAt (M k).block).length
  named : ∃ ρ, (M k).machine.store.Named (p.Wanted f) ρ F
  steps : F.steps ≤ (M k).machine.steps
  /-- Where the variable that is replaced is available, it holds what the other one holds. -/
  unified : p.unify = true → f.AvailableOut (M k).block p.second.induction →
    (M k).machine.env.get? p.second.induction = (M k).machine.env.get? p.first.induction

omit W in
theorem env_standIn (h : p.unify = true → v = p.second.induction →
      (M k).machine.env.get? p.second.induction = (M k).machine.env.get? p.first.induction) :
    (M k).machine.env.get? (Snapshot.standIn p v) = (M k).machine.env.get? v := by
  cases hu : p.unifies v with
  | true =>
    obtain ⟨hunify, hv⟩ := p.eq_of_unifies hu
    rw [Snapshot.standIn, if_pos hu, ← h hunify hv, hv]
  | false => rw [Layout.standIn_of_not_unifies hu]

section Outside

variable (hfront : ¬p.Front l₁ (M k).block) (hback : ¬p.Back l₂ (M k).block) (hk : k ≤ N)

include hfront hback

theorem bodySources_outside : p.bodySources (M k).block = [(M k).block] := by
  have L := W.layout
  refine L.bodySources_plain (fun h => L.not_late_of_outside hfront hback (Or.inl h)) (fun h => hfront (Or.inr (Or.inl h)))
    (fun h => ?_) (fun h => hfront (Or.inl (h ▸ L.latch₁_mem))) fun g hg => ⟨fun h => ?_, fun h => ?_⟩
  · rcases Layout.headerHome_eq (p := p) with h' | h'
    · exact hfront (Or.inl (h ▸ h' ▸ L.header₁_mem))
    · exact hfront (Or.inl (h ▸ h' ▸ L.latch₁_mem))
  · exact hfront (Or.inr (Or.inr ⟨g, hg, Or.inl h⟩))
  · exact hback (Or.inr (Or.inr ⟨g, hg, Or.inr h⟩))

include hk

/-- The induction variables are left alone outside the pair. -/
theorem induction_outside (hdone : (M k).done = (f.phisAt (M k).block).length) {m : Nat}
    (hm : m ≤ (f.bodyAt (M k).block).length) (hv : v = p.first.induction ∨ v = p.second.induction) :
    (M (k + m)).machine.env.get? v = (M k).machine.env.get? v := by
  have L := W.layout
  refine W.completes.env_code W.valid.once hk ⟨rfl, hdone⟩ hm fun hmem => ?_
  rcases hv with rfl | rfl
  · have := Func.destsAt_unique W.valid.once hmem (Layout.mem_destsAt.mpr (Or.inl L.induction₁_mem))
    exact hfront (Or.inl (this ▸ L.header₁_mem))
  · have := Func.destsAt_unique W.valid.once hmem (Layout.mem_destsAt.mpr (Or.inl L.induction₂_mem))
    exact hback (Or.inl (this ▸ L.header₂_mem))

/-- In a block outside the pair, the variable that replaces another shows what is available. -/
theorem shows_outside (h : Apart f p M k F) {m : Nat} (hm : m ≤ (f.bodyAt (M k).block).length)
    (hav : f.AvailableOut (M k).block v) :
    (M (k + m)).machine.env.get? (Snapshot.standIn p v) = (M (k + m)).machine.env.get? v := by
  refine env_standIn fun hu hv => ?_
  rw [W.induction_outside hfront hback hk h.done hm (Or.inr rfl), W.induction_outside hfront hback hk h.done hm (Or.inl rfl)]
  exact h.unified hu (hv ▸ hav)

/-- The fused run executes a block outside the pair. -/
theorem run_outside (h : Apart f p M k F) : ∃ F' ρ, F.runInstrs limit (p.code f (M k).block) = .ok F' ∧
    (M (k + (f.bodyAt (M k).block).length)).machine.store.Named (p.Wanted f) ρ F' ∧
      F'.steps ≤ (M (k + (f.bodyAt (M k).block).length)).machine.steps := by
  have C := W.completes
  have hstart : (M k).StartsAt f (M k).block := ⟨rfl, h.done⟩
  obtain ⟨ρ, hnamed⟩ := h.named
  have hsteps := C.code_steps hk hstart (Nat.le_refl _)
  have hlimit := C.steps_le (C.code hk hstart (Nat.le_refl _)).1
  have hle := h.steps
  have hstep : ∀ n i, (f.bodyAt (M k).block)[n]? = some i → True → ∃ act fresh, (M (k + n)).machine.action i.op = .ok act ∧
      (M (k + (n + 1))).machine.store = (M (k + n)).machine.store.perform fresh act ∧
      ¬(M (k + n)).machine.store.made fresh ∧
      (p.keeps f i = true → (M (k + n)).machine.store.Sees (Snapshot.standIn p) (M (k + n)).machine i.op) := by
    intro n i hi _
    obtain ⟨hlen, -⟩ := List.getElem?_eq_some_iff.mp hi
    obtain ⟨hkN, act, hexec⟩ := C.code_executes hk hstart hi
    have hblock := (C.code hk hstart hlen.le).2.1
    refine ⟨act, _, hexec.action, hexec.store, Nat.lt_irrefl _, fun _ =>
      ⟨fun o ho => Store.shows_of_env fun v hov x hx => ?_, fun _ _ _ _ _ => rfl⟩⟩
    have hphi := W.valid.phisFirst _ _ (C.mem_bodyAt W.valid.once hkN.le hexec.instr)
    have hav := (Func.readable_operand W.valid hexec.instr hphi (C.live W.valid.once hkN.le) ho v (by rw [hov]; rfl)).out
    exact (W.shows_outside hfront hback hk h hlen.le (hblock ▸ hav)).trans hx
  obtain ⟨F', ρ', hrun, hnamed', hsteps', -⟩ := Store.Named.runInstrs (m := fun n => (M (k + n)).machine)
    (s := fun n => (M (k + n)).machine.store) (P := fun _ => True) hstep (fun _ _ _ _ _ _ _ => trivial)
    (fun i hi hk' => W.layout.wanted_of_code W.valid (C.live W.valid.once hk) hi hk')
    (fun i _ hk' => Layout.not_wanted_of_dropped hk') (show F.steps + (f.bodyAt (M k).block).length ≤ limit by omega)
    trivial hnamed
  exact ⟨F', ρ', hrun, hnamed', by omega⟩

omit hk in
/-- Control gets from outside to a block outside or to the top. -/
theorem outside_step (hlive : f.Live (M k).block) (hedge : n ∈ f.successors (M k).block) :
    ¬p.Back l₂ n ∧ (p.Front l₁ n → n = p.top) ∧ ¬p.Late l₂ n ∧ p.redirect (M k).block n = n := by
  have L := W.layout
  have hback' : ¬p.Back l₂ n := by
    intro h
    by_cases hturn : n = p.turn
    · exact hfront (L.into_turn hlive (hturn ▸ hedge))
    · exact hback (L.into_back h hturn hlive hedge)
  have hfront' : p.Front l₁ n → n = p.top := by
    intro h
    by_contra hne
    exact hfront (L.into_front h hne hlive hedge)
  refine ⟨hback', hfront', ?_, Plan.redirect_of_not_cut ?_⟩
  · by_cases h : p.Front l₁ n
    · exact hfront' h ▸ L.not_late_of_early Layout.early_top
    · exact L.not_late_of_outside h hback'
  · rintro (⟨h, -⟩ | ⟨g, hg, h, -⟩ | ⟨first, last, hbody, ⟨h, -⟩ | ⟨h, -⟩⟩)
    · exact hfront (Or.inl (h ▸ L.latch₁_mem))
    · exact hfront (Or.inr (Or.inr ⟨g, hg, Or.inl h⟩))
    · exact hfront (Or.inl (h ▸ (L.shape₁.last_spec L.loop₁ (L.latch_ne_header hbody).1).1))
    · exact hback (Or.inl (h ▸ (L.inner_last hbody).1.1))

omit hk in
/-- A wanted phi behind an edge from outside is one of the block that the edge leads to. -/
theorem phi_outside (hlive : f.Live (M k).block) (hedge : n ∈ f.successors (M k).block) (hb : n = p.phiHome b)
    (hphi : v ∈ phiDests f b) (hw : p.Wanted f v) : b = n := by
  have L := W.layout
  rcases L.phiHome_inv hb with h | ⟨-, rfl⟩ | ⟨g, hg, ⟨rfl, rfl⟩ | ⟨-, rfl⟩⟩
  · exact h
  · rcases L.shape₁.into_header L.loop₁ hlive hedge with h | h
    · exact absurd (Or.inr (Or.inl h)) hfront
    · exact absurd (Or.inl (h ▸ L.latch₁_mem)) hfront
  · rcases (W.joinClosed hg hphi hw).2 _ hlive hedge with h | h
    · exact absurd (Or.inr (Or.inr ⟨g, hg, Or.inl h⟩)) hback
    · exact absurd (Or.inr (Or.inr ⟨g, hg, Or.inr h⟩)) hback
  · exact absurd (Or.inl (((L.guards hg).into₂ _).mp hedge ▸ L.latch₂_mem)) hback

section Leave

variable (h : Apart f p M k F) {q : Nat} (hq : k + (f.bodyAt (M k).block).length = q)

include h hq

/-- The phis behind an edge from outside receive the same in both runs. -/
theorem receives_outside (hmove : (M q).Moves f (M (q + 1))) :
    Receives f p M (M q).machine.store (M (q + 1)).machine.store (M k).block (M (q + 1)).block q := by
  have L := W.layout
  have hlive := W.completes.live W.valid.once hk
  have hblock : (M q).block = (M k).block := by rw [← hq, (W.completes.code_ends hk ⟨rfl, h.done⟩).2.1.1]
  have hedge := hmove.edge
  rw [hblock] at hedge
  refine ⟨hmove, rfl, ?_, fun _ _ _ => rfl, fun i hi d sources hop _ u hu hu₁ _ x hx => ?_⟩
  · rw [hblock]
    exact L.sourceName_kept fun h => L.not_late_of_outside hfront hback (Or.inl h)
  · rw [Layout.sourceOperand_plain fun g hg hjoin => hback (Or.inr (Or.inr ⟨g, hg, Or.inl ?_⟩)),
      p.standInOperand_eq_through]
    · refine (Store.shows_of_env fun v hov y hy => ?_) x hx
      have hok := W.valid.phis _ (hlive.step hedge) i (Func.mem_instrsOf_of_phi hi) sources (i.sources?_of_phi hop)
      have hav := hok.reads u hu (by rw [hu₁, hblock]; exact hlive) v (by rw [hov]; rfl)
      rw [hu₁, hblock] at hav
      rw [← hq] at hy ⊢
      exact (W.shows_outside hfront hback hk h (Nat.le_refl _) hav).trans hy
    · rw [← hblock, ← hu₁]
      exact hjoin.2

/-- The terminator of a block outside the pair decides the same in both runs. -/
theorem decides_outside {t : Terminator} (ht : f.term? (M k).block = some t) {o : Operand} (ho : o ∈ t.operands) :
    (M q).machine.store.Shows (Snapshot.standIn p) (M q).machine o := by
  refine Store.shows_of_env fun v hov x hx => ?_
  have hav := W.valid.termReads _ (W.completes.live W.valid.once hk) t ht v
    (List.mem_filterMap.mpr ⟨o, ho, by rw [hov]; rfl⟩)
  subst hq
  exact (W.shows_outside hfront hback hk h (Nat.le_refl _) hav).trans hx

/-- The induction variables stay unified on an edge from outside. -/
theorem unified_outside (hmove : (M q).Moves f (M (q + 1))) (hu : p.unify = true)
    (hav : f.AvailableOut (M (q + 1)).block p.second.induction) :
    (M (q + 1)).machine.env.get? p.second.induction = (M (q + 1)).machine.env.get? p.first.induction := by
  have L := W.layout
  obtain ⟨hle, hends, -⟩ := W.completes.code_ends hk ⟨rfl, h.done⟩
  rw [hq] at hends
  have hedge := hmove.edge
  rw [hends.1] at hedge
  obtain ⟨hback', hfront', -, -⟩ := W.outside_step hfront hback (W.completes.live W.valid.once hk) hedge
  have h₂ : p.second.induction ∉ f.destsAt (M (q + 1)).block := by
    intro hmem
    have := Func.destsAt_unique W.valid.once hmem (Layout.mem_destsAt.mpr (Or.inl L.induction₂_mem))
    exact hback' (Or.inl (this ▸ L.header₂_mem))
  have h₁ : p.first.induction ∉ f.destsAt (M (q + 1)).block := by
    intro hmem
    have hin := Func.destsAt_unique W.valid.once hmem (Layout.mem_destsAt.mpr (Or.inl L.induction₁_mem)) ▸ L.header₁_mem
    exact L.top_out₁ (hfront' (Or.inl hin) ▸ hin)
  have hout := hav.of_step hedge h₂
  rw [hmove.frame _ fun hphi => h₂ (Layout.mem_destsAt.mpr (Or.inl hphi)),
    hmove.frame _ fun hphi => h₁ (Layout.mem_destsAt.mpr (Or.inl hphi)), ← hq,
    ← W.shows_outside hfront hback hk h (Nat.le_refl _) hout, Snapshot.standIn,
    if_pos (by rw [Plan.unifies, hu, Bool.true_and, beq_self_eq_true])]

/-- The fused run goes with the run from a block outside the pair to the next one. -/
theorem leave_outside (hlt : q < N) :
    ∃ F', (p.apply f).Hops limit F (p.label f (M k).block) F' (p.label f (M (q + 1)).block) ∧ Apart f p M (q + 1) F' ∧
      ¬p.Back l₂ (M (q + 1)).block ∧ (p.Front l₁ (M (q + 1)).block → (M (q + 1)).block = p.top) := by
  have L := W.layout
  have C := W.completes
  have hlive := C.live W.valid.once hk
  obtain ⟨F₁, ρ, hrun, hnamed, hsteps⟩ := W.run_outside hfront hback hk h
  obtain ⟨hle, hends, -⟩ := C.code_ends hk ⟨rfl, h.done⟩
  rw [hq] at hnamed hsteps hends
  have hmove := C.moves_of_ends W.valid.once hlt hends
  obtain ⟨t, ht, htransfer⟩ := hmove.transfer
  have hedge := hmove.edge
  rw [hends.1] at ht htransfer hedge
  obtain ⟨hback', hfront', hlate, hredirect⟩ := W.outside_step hfront hback hlive hedge
  have hsplice := (L.live_splice hlive).1 (L.not_late_of_outside hfront hback)
  have hnext := (L.live_splice (hlive.step hedge)).1 hlate
  have hcode : F.runInstrs limit ((p.bodySources (M k).block).flatMap (p.code f)) = .ok F₁ := by
    rw [W.bodySources_outside hfront hback, List.flatMap_singleton]
    exact hrun
  have hphis : ∀ b v, (M (q + 1)).block = p.phiHome b → v ∈ phiDests f b → p.Wanted f v →
      b ∈ [(M (q + 1)).block] ∧
        ∃ k', Receives f p M (M q).machine.store (M (q + 1)).machine.store (M k).block b k' := by
    intro b v hb hphi hw
    obtain rfl := W.phi_outside hfront hback hlive hedge hb hphi hw
    exact ⟨List.mem_singleton_self _, q, W.receives_outside hfront hback hk h hq hmove⟩
  have hframe : ∀ v, p.Wanted f v → (∀ b, (M (q + 1)).block = p.phiHome b → v ∉ phiDests f b) →
      (M (q + 1)).machine.store.env v = (M q).machine.store.env v := by
    intro v _ hnot
    exact hmove.frame v (hnot _ (Layout.phiHome_kept fun hrem => hlate (Or.inl hrem)).symm)
  have hbudget := C.steps_le (show q + 1 ≤ N from hlt)
  have hmsteps := hmove.steps
  rw [← hredirect] at hnext
  obtain ⟨F', hhop, hnamed', hsteps'⟩ := W.hops [(M (q + 1)).block] hsplice ht hcode hnamed htransfer
    (fun o ho => W.decides_outside hfront hback hk h hq ht ho) hnext (by rw [hredirect]; exact hphis)
    (by rw [hredirect]; exact hframe) (fun a _ n => hmove.cell? a n) (fun a => by rw [Machine.store, hmove.memory]; rfl)
    (by rw [List.flatMap_singleton]; omega)
  rw [hredirect] at hhop
  refine ⟨F', hhop, ⟨hmove.done, ⟨ρ, hnamed'⟩, ?_, fun hu hav => ?_⟩, hback', hfront'⟩
  · rw [List.flatMap_singleton] at hsteps'
    omega
  · exact W.unified_outside hfront hback hk h hq hmove hu hav

/-- The fused run returns with the run. -/
theorem return_outside (hplain : ∀ x ∈ r.values, ∀ ρ, x.rename ρ = some x) (hlast : q = N) :
    (p.apply f).Returns limit r.values F (p.label f (M k).block) := by
  have L := W.layout
  have C := W.completes
  have hlive := C.live W.valid.once hk
  obtain ⟨F₁, ρ, hrun, hnamed, hsteps⟩ := W.run_outside hfront hback hk h
  have hblock := (C.code_ends hk ⟨rfl, h.done⟩).2.1.1
  obtain ⟨-, hlimit, t, ht, htransfer⟩ := C.returns
  rw [hq, hlast] at hnamed hsteps hblock
  rw [hblock] at ht htransfer
  have hsplice := (L.live_splice hlive).1 (L.not_late_of_outside hfront hback)
  obtain ⟨blk, hblk, hbody, hterm⟩ := L.block?_apply W.valid hsplice ht
  refine .finish hblk ?_ (Nat.lt_of_le_of_lt hsteps hlimit) ?_
  · rw [hbody, W.bodySources_outside hfront hback, List.flatMap_singleton]
    exact hrun
  · rw [hterm]
    exact hnamed.finish (fun o ho => hlast ▸ W.decides_outside hfront hback hk h hq ht ho)
      (L.wanted_of_term W.valid hsplice ht) (fun x hx => hplain x hx ρ) htransfer

end Leave

end Outside

end FusedRun

end SsaFusion
