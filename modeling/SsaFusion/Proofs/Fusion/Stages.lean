import SsaFusion.Proofs.Fusion.Edges

/-!
# Front and back side by side

The fused run executes the code of front and back in turns. What the back reads there, it reads as in the run: a value of the
first loop has by then its last value or one that every round repeats, and a value that it is not yet to have is not read, as
the fused function is valid (`splice_dominates`). In the loops, front and back are in the same round (`Abreast`).
-/

namespace SsaFusion

open Plan (phiDests bodyDests)

namespace FusedRun

variable {f : Func} {l₁ l₂ : Loop} {p : Plan} {args : List Word} {limit N i i' j j' k n s t e : Nat} {M : Nat → Moment}
variable {r : RunResult} {a b c d x : BlockId} {v : ValueId} {F F₁ : Machine} {instr : Instr}
variable (W : FusedRun f l₁ l₂ p args limit M N r) (P : Crossing f l₁ l₂ p M N s t e)

include W

/-! ## What is available in the fused function -/

section Available

variable (hd : d ∈ l₁.blocks) (hvd : v ∈ f.destsAt d)

include hd hvd

/-- What the second body reads of the first loop is there before the first latch. -/
theorem available_latch (hi : (M i).StartsAt f p.first.latch) (hb : p.Inner l₂ b)
    (hdom : f.Dominates d p.first.latch) (hav : (p.splice f).AvailableOut b (Snapshot.standIn p v)) :
    f.AvailableBefore (M i).block (M i).done v := by
  rw [hi.1]
  refine Or.inl (Or.inr ⟨d, ⟨?_, hdom⟩, hvd⟩)
  rintro rfl
  exact W.layout.latch₁_not_dominates_inner hb (W.layout.splice_dominates W.valid hd hvd hav)

end Available

/-! ## Code -/

include P

/-- The fused run executes a block of the front. -/
theorem runs_front (hsi : s ≤ i) (hit : i < t) (htj : t ≤ j) (hje : j ≤ e) (hb : (M i).StartsAt f b)
    (hpast : ∀ n < (f.bodyAt b).length, ∀ c w, (M (i + n)).access? f = some (c, w) → ∀ m, t ≤ m → m < j →
      (M m).access? f ≠ some (c, true))
    (hF : Crossing.Blended (p.Wanted f) f l₂ p M t i j F) :
    ∃ F', F.runInstrs limit (p.code f b) = .ok F' ∧
      Crossing.Blended (p.Wanted f) f l₂ p M t (i + (f.bodyAt b).length) j F' := by
  have hlive : f.Live b := hb.1 ▸ W.completes.live W.valid.once (by have := P.le; have := P.turn_lt; omega)
  exact P.run_front W.layout W.valid W.completes (fun _ hi hk => W.layout.wanted_of_code W.valid hlive hi hk)
    (fun _ _ hk => Layout.not_wanted_of_dropped hk) hsi hit htj hje hb hpast hF

/-- The fused run executes a block of the back. -/
theorem runs_back (hsi : s ≤ i) (hit : i < t) (htj : t ≤ j) (hje : j < e) (hb : (M j).StartsAt f b)
    (htop : (M i).EndsAt f p.top ∨ (M i).block ≠ p.top)
    (hunify : p.unify = true → f.AvailableOut b p.second.induction → ∀ n < (f.bodyAt b).length,
      (M (j + n)).machine.env.get? p.second.induction = (M i).machine.env.get? p.first.induction)
    (hfirst : p.guards = none → ∀ instr ∈ f.bodyAt b, ∀ v ∈ instr.reads, ∀ d ∈ l₁.blocks, v ∈ f.destsAt d →
      f.Dominates d p.first.latch → (M t).machine.env.get? v = (M i).machine.env.get? v)
    (hahead : ∀ n < (f.bodyAt b).length, ∀ c w, (M (j + n)).access? f = some (c, w) → ∀ m, i ≤ m → m < t →
      (M m).access? f ≠ some (c, true))
    (hF : Crossing.Blended (p.Wanted f) f l₂ p M t i j F) :
    ∃ F', F.runInstrs limit (p.code f b) = .ok F' ∧
      Crossing.Blended (p.Wanted f) f l₂ p M t i (j + (f.bodyAt b).length) F' := by
  have L := W.layout
  have C := W.completes
  have hback : p.Back l₂ b := hb.1 ▸ P.back j htj hje
  have hlive := L.live_of_back hback
  refine P.run_back L W.valid C (fun _ hi hk => L.wanted_of_code W.valid hlive hi hk)
    (fun _ _ hk => Layout.not_wanted_of_dropped hk) hit htj hje hb (fun n instr hn hk v hr => ?_) hahead hF
  have hi := List.mem_of_getElem? hn
  have hlen := (List.getElem?_eq_some_iff.mp hn).1
  have hphi := W.valid.phisFirst b instr hi
  have hblock := (C.code (hje.le.trans P.le) hb hlen.le).2.1
  have hav : f.AvailableOut b v := by
    obtain ⟨o, ho, hov⟩ := List.mem_filterMap.mp hr
    exact (Func.readable_operand W.valid (Func.instrAt?_body n ▸ hn) hphi hlive ho v hov).out
  refine P.back_shows L W.valid C hsi hit (by omega) (P.code_back L C htj hje hb hlen.le) htop (hblock ▸ hav)
    (fun hguard => ?_) (fun hu => ?_) fun hg d hd hvd hdom => hfirst hg instr hi v hr d hd hvd hdom
  · obtain ⟨g, hg, hmem, hclosed⟩ := W.joinClosed_of_guardPhi hguard (L.wanted_of_code W.valid hlive hi hk v hr)
    exact L.guardPhi_not_read hg hclosed hmem hback hi hphi hr
  · obtain ⟨hun, rfl⟩ := p.eq_of_unifies hu
    exact hunify hun hav n hlen

/-- The terminator of a block of the front decides as in the run. -/
theorem decides_front (hsi : s ≤ i) (hit : i < t) {term : Terminator} (ht : f.term? (M i).block = some term) {o : Operand}
    (ho : o ∈ term.operands) : (blend f l₂ p M t i j).Shows (Snapshot.standIn p) (M i).machine o := by
  refine Store.shows_of_env fun v hov y hy => ?_
  have hlive := W.completes.live W.valid.once (show i ≤ N by have := P.le; have := P.turn_lt; omega)
  have hav := W.valid.termReads _ hlive term ht v (List.mem_filterMap.mpr ⟨o, ho, by rw [hov]; rfl⟩)
  exact (P.front_shows W.layout W.valid hsi hit hav).trans hy

end FusedRun

/-! ## In the loops -/

namespace Stay

variable {f : Func} {l : Loop} {sh : LoopShape} {M : Nat → Moment} {a x k n : Nat} (S : Stay f l sh M a x)
variable (hout : sh.exit ∉ l.blocks)

include S hout

theorem succ_lt (hx : k < x) (hmem : (M (k + 1)).block ∈ l.blocks) : k + 1 < x := by
  refine Nat.lt_of_le_of_ne hx ?_
  rintro rfl
  exact hout (S.leaves.1 ▸ hmem)

/-- A loop is not left in the code of a block. -/
theorem code_lt {args : List Word} {limit N : Nat} {r : RunResult} {b : BlockId} (C : f.Completes args limit M N r)
    (ha : a ≤ k) (hx : k < x) (hk : k ≤ N) (hb : (M k).StartsAt f b) (hn : n ≤ (f.bodyAt b).length) : k + n < x := by
  by_contra hle
  obtain ⟨m, hm⟩ : ∃ m, x = k + m := ⟨x - k, by omega⟩
  have hblock := (C.code hk hb (show m ≤ (f.bodyAt b).length by omega)).2.1
  rw [← hm, S.leaves.1] at hblock
  exact hout (hblock ▸ hb.1 ▸ S.inside k ha hx)

end Stay

/-- Front and back are in the same round of their loops. -/
structure Abreast (f : Func) (l₁ l₂ : Loop) (p : Plan) (M : Nat → Moment) (N s t e a₁ x₁ a₂ x₂ i j : Nat) : Prop
    extends Visit f l₁ l₂ p M N s t e a₁ x₁ a₂ x₂ where
  ge₁ : a₁ ≤ i
  in₁ : i < x₁
  ge₂ : a₂ ≤ j
  in₂ : j < x₂
  rounds : (M i).rounds l₁.header = (M j).rounds l₂.header

namespace Abreast

variable {f : Func} {l₁ l₂ : Loop} {p : Plan} {args : List Word} {limit N i i' j j' k n s t e a₁ x₁ a₂ x₂ : Nat}
variable {M : Nat → Moment} {r : RunResult} {a b c d x : BlockId} {v : ValueId} {F F₁ : Machine} {instr : Instr}
variable (W : FusedRun f l₁ l₂ p args limit M N r) (A : Abreast f l₁ l₂ p M N s t e a₁ x₁ a₂ x₂ i j)

include A

theorem mem₁ : (M i).block ∈ l₁.blocks := A.stay₁.inside i A.ge₁ A.in₁

theorem mem₂ : (M j).block ∈ l₂.blocks := A.stay₂.inside j A.ge₂ A.in₂

theorem bounds : s ≤ i ∧ i < t ∧ t ≤ j ∧ j < e ∧ j ≤ N ∧ i ≤ N ∧ x₁ ≤ N ∧ x₂ ≤ N := by
  have := A.lt₁
  have := A.lt₂
  have := A.le₁
  have := A.le₂
  have := A.ge₁
  have := A.ge₂
  have := A.in₁
  have := A.in₂
  have := A.le
  have := A.turn_lt
  omega

include W

/-- The front runs code in its round. -/
theorem code₁ (hi : (M i).StartsAt f b) (hn : n ≤ (f.bodyAt b).length) :
    Abreast f l₁ l₂ p M N s t e a₁ x₁ a₂ x₂ (i + n) j := by
  obtain ⟨-, -, -, -, -, hiN, -⟩ := A.bounds
  refine { A with
    ge₁ := A.ge₁.trans (Nat.le_add_right _ _)
    in₁ := A.stay₁.code_lt W.layout.exit₁_out.1 W.completes A.ge₁ A.in₁ hiN hi hn
    rounds := ?_ }
  rw [(W.completes.code hiN hi hn).2.2.2]
  exact A.rounds

/-- The back runs code in its round. -/
theorem code₂ (hj : (M j).StartsAt f b) (hn : n ≤ (f.bodyAt b).length) :
    Abreast f l₁ l₂ p M N s t e a₁ x₁ a₂ x₂ i (j + n) := by
  obtain ⟨-, -, -, -, hjN, -⟩ := A.bounds
  refine { A with
    ge₂ := A.ge₂.trans (Nat.le_add_right _ _)
    in₂ := A.stay₂.code_lt W.layout.exit₂_out.2 W.completes A.ge₂ A.in₂ hjN hj hn
    rounds := ?_ }
  rw [(W.completes.code hjN hj hn).2.2.2]
  exact A.rounds

/-- The front gets to another block of its round. -/
theorem step₁ (hmem : (M (i + 1)).block ∈ l₁.blocks)
    (hne : (M (i + 1)).block ≠ p.first.header) : Abreast f l₁ l₂ p M N s t e a₁ x₁ a₂ x₂ (i + 1) j := by
  obtain ⟨-, -, -, -, -, hiN, hxN, -⟩ := A.bounds
  have hlt := A.stay₁.succ_lt W.layout.exit₁_out.1 A.in₁ hmem
  refine { A with ge₁ := A.ge₁.trans (Nat.le_succ _), in₁ := hlt, rounds := ?_ }
  rw [W.completes.rounds_frame W.valid.once (Nat.le_succ i) (by omega) fun n hin hni => ?_]
  · exact A.rounds
  · obtain rfl : n = i + 1 := by omega
    rw [← W.layout.shape₁.header]
    exact hne

/-- The back gets to another block of its round. -/
theorem step₂ (hmem : (M (j + 1)).block ∈ l₂.blocks)
    (hne : (M (j + 1)).block ≠ p.second.header) : Abreast f l₁ l₂ p M N s t e a₁ x₁ a₂ x₂ i (j + 1) := by
  obtain ⟨-, -, -, -, hjN, -, -, hxN⟩ := A.bounds
  have hlt := A.stay₂.succ_lt W.layout.exit₂_out.2 A.in₂ hmem
  refine { A with ge₂ := A.ge₂.trans (Nat.le_succ _), in₂ := hlt, rounds := ?_ }
  rw [W.completes.rounds_frame W.valid.once (Nat.le_succ j) (by omega) fun n hjn hnj => ?_]
  · exact A.rounds
  · obtain rfl : n = j + 1 := by omega
    rw [← W.layout.shape₂.header]
    exact hne

/-! ### Reads of the back -/

/-- What the second loop reads of the first has, once it is there, the value that it has at the turn. -/
theorem settled (hb : b ∈ l₂.blocks) (hread : f.ReadsAt b v) (hd : d ∈ l₁.blocks) (hvd : v ∈ f.destsAt d)
    (hdom : f.Dominates d p.first.latch) (hav : f.AvailableBefore (M i).block (M i).done v) :
    (M t).machine.env.get? v = (M i).machine.env.get? v := by
  obtain ⟨blk, hblk, hreads⟩ := hread
  have hrep := Snapshot.isRepeated?_of_unreported W.valid.once W.scalars hb hblk hreads
    ((Snapshot.definedIn_iff W.valid.once).mpr ⟨d, hd, hvd⟩)
  exact A.toVisit.repeats W.layout W.valid W.completes hrep A.ge₁ A.in₁ hav hd hvd hdom

theorem induction_eq (hu : p.unify = true) :
    (M j).machine.env.get? p.second.induction = (M i).machine.env.get? p.first.induction :=
  A.toVisit.induction_eq W.layout W.completes W.faithful hu A.ge₁ A.in₁ A.ge₂ A.in₂ A.rounds

theorem not_top : (M i).block ≠ p.top := fun h =>
  W.layout.top_out₁ (h ▸ A.mem₁)

/-- What the second loop reads, it reads in the blend. -/
theorem shows (hb : b ∈ l₂.blocks) (hread : f.ReadsAt b v) (hav : f.AvailableOut (M j).block v) (hphi : ¬p.GuardPhi f v)
    (hfirst : p.guards = none → ∀ d ∈ l₁.blocks, v ∈ f.destsAt d → f.Dominates d p.first.latch →
      f.AvailableBefore (M i).block (M i).done v) :
    (blend f l₂ p M t i j).env (Snapshot.standIn p v) = (M j).machine.env.get? v := by
  obtain ⟨hsi, hit, htj, hje, -⟩ := A.bounds
  exact A.back_shows W.layout W.valid W.completes hsi hit htj hje (Or.inr (A.not_top W)) hav hphi
    (fun hu => A.induction_eq W (p.eq_of_unifies hu).1)
    fun hg d hd hvd hdom => A.settled W hb hread hd hvd hdom (hfirst hg d hd hvd hdom)

/-- The fused run executes a block of the second loop. -/
theorem runs₂ (hj : (M j).StartsAt f b)
    (hfirst : p.guards = none → ∀ instr ∈ f.bodyAt b, ∀ v ∈ instr.reads, ∀ d ∈ l₁.blocks, v ∈ f.destsAt d →
      f.Dominates d p.first.latch → f.AvailableBefore (M i).block (M i).done v)
    (hahead : ∀ n < (f.bodyAt b).length, ∀ c w, (M (j + n)).access? f = some (c, w) → ∀ m, i ≤ m → m < t →
      (M m).access? f ≠ some (c, true))
    (hF : Crossing.Blended (p.Wanted f) f l₂ p M t i j F) :
    ∃ F', F.runInstrs limit (p.code f b) = .ok F' ∧
      Crossing.Blended (p.Wanted f) f l₂ p M t i (j + (f.bodyAt b).length) F' := by
  obtain ⟨hsi, hit, htj, hje, -⟩ := A.bounds
  refine W.runs_back A.toCrossing hsi hit htj hje hj (Or.inr (A.not_top W))
    (fun hu _ n hn => (A.code₂ W hj hn.le).induction_eq W hu) (fun hg instr hi v hr d hd hvd hdom => ?_) hahead hF
  exact A.settled W (hj.1 ▸ A.mem₂) (.of_instr (Func.mem_instrsOf_of_body hi) hr) hd hvd hdom
    (hfirst hg instr hi v hr d hd hvd hdom)

/-! ### Code of the loops -/

/-- The fused run executes a block of the first loop. -/
theorem runs₁ (hi : (M i).StartsAt f b) (hbehind : Visit.Behind f l₂ M t a₂ x₂ j ((M i).rounds l₁.header))
    (hF : Crossing.Blended (p.Wanted f) f l₂ p M t i j F) :
    ∃ F', F.runInstrs limit (p.code f b) = .ok F' ∧
      Crossing.Blended (p.Wanted f) f l₂ p M t (i + (f.bodyAt b).length) j F' := by
  obtain ⟨hsi, hit, htj, hje, -, hiN, -⟩ := A.bounds
  refine W.runs_front A.toCrossing hsi hit htj hje.le hi (fun n hn c w hacc => ?_) hF
  have A' := A.code₁ W hi hn.le
  refine A.toVisit.not_written_behind W.layout W.completes W.faithful A'.ge₁ A'.in₁ ?_ hacc
  rw [(W.completes.code hiN hi hn.le).2.2.2]
  exact hbehind

/-- With the front at the end of its round, the fused run executes a block of the second loop. -/
theorem runs_latch (hi : (M i).EndsAt f p.first.latch) (hj : (M j).StartsAt f b)
    (hF : Crossing.Blended (p.Wanted f) f l₂ p M t i j F) :
    ∃ F', F.runInstrs limit (p.code f b) = .ok F' ∧
      Crossing.Blended (p.Wanted f) f l₂ p M t i (j + (f.bodyAt b).length) F' := by
  refine A.runs₂ W hj (fun _ instr _ v _ d _ hvd hdom => ?_) (fun n hn c w hacc => ?_) hF
  · rw [hi.1]
    exact (Func.availableBefore_end hi.2).mpr (Or.inr ⟨d, hdom, hvd⟩)
  · have A' := A.code₂ W hj hn.le
    exact A.toVisit.not_written_ahead W.layout W.valid W.completes W.faithful A.ge₁ A.in₁ hi A'.ge₂ A'.in₂ A'.rounds hacc

section Body

variable {first last : BlockId} (hbody : p.second.body = some (first, last))

include hbody

/-- With the front at the end of its header, the fused run executes the header of the second loop. -/
theorem runs_header (hi : (M i).EndsAt f p.first.header) (hj : (M j).StartsAt f p.second.header)
    (hF : Crossing.Blended (p.Wanted f) f l₂ p M t i j F) :
    ∃ F', F.runInstrs limit (p.code f p.second.header) = .ok F' ∧
      Crossing.Blended (p.Wanted f) f l₂ p M t i (j + (f.bodyAt p.second.header).length) F' := by
  have L := W.layout
  obtain ⟨-, -, -, -, hjN, -⟩ := A.bounds
  have hhome : p.headerHome = p.first.header := by rw [Plan.headerHome, hbody]; rfl
  refine A.runs₂ W hj (fun _ instr hmem v hr d hd hvd _ => ?_) (fun n hn c w hacc => ?_) hF
  · have hreads := (L.relocated W.valid).header₂
    rw [hhome] at hreads
    have hout : p.second.header ∉ l₁.blocks := L.disjoint' L.header₂_mem
    have hav := W.layout.available_of_readsOk W.valid hd hvd hreads hout hmem hr
    rw [hi.1, Func.availableBefore_end hi.2]
    exact Or.inr ⟨d, L.eq_header₁_of_dominates hd (W.layout.splice_dominates W.valid hd hvd hav) ▸ .refl _, hvd⟩
  · have hcode := W.completes.code hjN hj hn.le
    rw [access?_of_movable W.valid W.completes (L.plan.code.body _ _ hbody).2.2.1 hcode.1 hcode.2.1] at hacc
    cases hacc

/-- With the front at the start of its latch, nothing that the second loop accesses in this round is still to be written. -/
theorem not_written_latch (hi : (M i).StartsAt f p.first.latch) {c : Nat × Nat} {w : Bool}
    (hacc : (M j).access? f = some (c, w)) : ∀ m, i ≤ m → m < t → (M m).access? f ≠ some (c, true) := by
  have L := W.layout
  obtain ⟨-, -, -, -, -, hiN, -⟩ := A.bounds
  have A' := A.code₁ W hi (Nat.le_refl _)
  intro m him hmt
  rcases Nat.lt_or_ge m (i + (f.bodyAt p.first.latch).length) with hlt | hge
  · obtain ⟨n, rfl⟩ := Nat.exists_eq_add_of_le him
    have hcode := W.completes.code hiN hi (show n ≤ (f.bodyAt p.first.latch).length by omega)
    rw [access?_of_movable W.valid W.completes (L.plan.code.body _ _ hbody).2.2.2 hcode.1 hcode.2.1]
    exact (Option.some_ne_none _).symm
  · exact A.toVisit.not_written_ahead L W.valid W.completes W.faithful A'.ge₁ A'.in₁ (W.completes.code_ends hiN hi).2.1
      A'.ge₂ A'.in₂ A'.rounds hacc m hge hmt

/-- With the front at the start of its latch, the fused run executes a block of the second body. -/
theorem runs_inner (hi : (M i).StartsAt f p.first.latch) (hj : (M j).StartsAt f b) (hb : p.Inner l₂ b)
    (hF : Crossing.Blended (p.Wanted f) f l₂ p M t i j F) :
    ∃ F', F.runInstrs limit (p.code f b) = .ok F' ∧
      Crossing.Blended (p.Wanted f) f l₂ p M t i (j + (f.bodyAt b).length) F' := by
  have L := W.layout
  refine A.runs₂ W hj (fun _ instr hmem v hr d hd hvd hdom => ?_) (fun n hn c w hacc => ?_) hF
  · refine W.available_latch hd hvd hi hb hdom (Func.availableOut_iff.mpr ?_)
    rcases (L.relocated W.valid).innerReads b hb instr hmem v hr (Or.inr (Func.mem_dests.mpr ⟨d, hvd⟩)) with h | h
    · exact Or.inl h
    · rw [W.layout.standIn_first W.valid hd hvd] at h
      exact absurd (Func.destsAt_unique W.valid.once h hvd ▸ hb.1) (L.disjoint hd)
  · exact (A.code₂ W hj hn.le).not_written_latch W hbody hi hacc

end Body

end Abreast

end SsaFusion
