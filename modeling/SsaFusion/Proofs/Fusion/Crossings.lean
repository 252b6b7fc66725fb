import SsaFusion.Proofs.Fusion.Scalars
import SsaFusion.Proofs.Fusion.Sides
import SsaFusion.Proofs.Machine.Following

/-!
# One pass of a run through a pair of loops

From the top of a pair on, a run that returns goes through the front up to the turn and through the back up to the block behind
the pair (`exists_crossing`). If it enters the loops, it stays in each for a number of rounds (`Stay`, `exists_stay`), and both
times are a `Visit`. What the two parts of a pass have to do with each other at run time is a matter of the run, not of the
function: a run is faithful to a plan (`Faithful`) if both loops are left after the same number of rounds, an induction variable
that replaces another holds the same datum in the same round, and no cell that one of the loops writes is accessed by the first
loop in a later round than by the second. A run without wrap-around is, if the plan was made carefully
(`CarefullyPlanned.faithful`).
-/

namespace SsaFusion

open Plan (phiDests bodyDests)

/-! ## Faithful runs -/

/-- Between two moments of a run, control does not enter a loop from outside. -/
def Func.NotReentered (f : Func) (args : List Word) (limit : Nat) (l : Loop) (k k' : Nat) : Prop :=
  ∀ n M M', k ≤ n → n < k' → f.moment? args limit n = some M → f.moment? args limit (n + 1) = some M' →
    M'.block = l.header → M.block ∈ l.blocks

/-- A run for which the fusion of a pair of loops is as good as the pair. -/
structure Faithful (f : Func) (l₁ l₂ : Loop) (p : Plan) (args : List Word) (limit : Nat) : Prop where
  /-- Both loops are left after the same number of rounds. -/
  rounds : ∀ k M M', f.moment? args limit k = some M → f.moment? args limit (k + 1) = some M' → M.block ∈ l₂.blocks →
    M'.block ∉ l₂.blocks → M.rounds l₁.header = M.rounds l₂.header
  /-- An induction variable that replaces another holds the same datum in the same round. -/
  induction : p.unify = true → ∀ k k' M M', k ≤ k' → f.NotReentered args limit l₁ k k' → f.moment? args limit k = some M →
    f.moment? args limit k' = some M' → M.block ∈ l₁.blocks → M'.block ∈ l₂.blocks →
    M.rounds l₁.header = M'.rounds l₂.header →
    M'.machine.env.get? p.second.induction = M.machine.env.get? p.first.induction
  /-- What the first loop accesses in a later round than the second, neither of them writes. -/
  cells : ∀ k k' M M' c w w', k ≤ k' → f.NotReentered args limit l₁ k k' → f.moment? args limit k = some M →
    f.moment? args limit k' = some M' → M.block ∈ l₁.blocks → M'.block ∈ l₂.blocks →
    M'.rounds l₂.header < M.rounds l₁.header → M.access? f = some (c, w) → M'.access? f = some (c, w') →
    w = false ∧ w' = false
  /-- At the entry, no phi receives what a phi of the second guard held. -/
  join : ∀ g, p.guards = some g → g.join = f.entry → ∀ v ∈ phiDests f g.second, v ∉ (p.apply f).reads

/-- A run that returns, of a function with a pair of loops that may be fused. -/
structure PairRun (f : Func) (l₁ l₂ : Loop) (p : Plan) (args : List Word) (limit : Nat) (M : Nat → Moment) (N : Nat)
    (r : RunResult) : Prop where
  layout : Layout f l₁ l₂ p
  valid : f.Valid
  completes : f.Completes args limit M N r
  scalars : (Snapshot.of f).scalarDependences l₁ l₂ = some []
  guards : ∀ g, p.guards = some g → (Snapshot.of f).guardsMatch l₁ l₂ = true

/-! ## One loop -/

/-- A stay in a loop: control comes to the header from outside, stays in the loop and leaves it. -/
structure Stay (f : Func) (l : Loop) (sh : LoopShape) (M : Nat → Moment) (a x : Nat) : Prop where
  enters : (M a).StartsAt f sh.header
  before : ∃ k, a = k + 1 ∧ (M k).block ∉ l.blocks
  inside : ∀ k, a ≤ k → k < x → (M k).block ∈ l.blocks
  leaves : (M x).StartsAt f sh.exit
  lt : a < x
  zero : (M a).rounds l.header = 0

section Stay

variable {f : Func} {args : List Word} {limit N k n j a x : Nat} {M : Nat → Moment} {r : RunResult} {l : Loop} {sh : LoopShape}
variable (C : f.Completes args limit M N r) (hn : f.defined.Nodup) (hl : l ∈ f.loops) (hs : ShapeOf f l sh)

include C hn hl hs

/-- Control that comes to the header from outside stays for a number of rounds. -/
theorem exists_stay (hk : k < N) (hmove : (M k).Moves f (M (k + 1))) (hout : (M k).block ∉ l.blocks)
    (hhead : (M (k + 1)).block = sh.header) : ∃ x, x ≤ N ∧ Stay f l sh M (k + 1) x := by
  have hloop := isLoop_of_mem hl
  have hsucc : ∀ b, b ∈ l.blocks → ∃ c, c ∈ f.successors b := by
    intro b hb
    obtain ⟨t, ht, hreach⟩ := hloop.reaches_tail hb
    rcases hreach.cases_head with rfl | ⟨c, hc, -⟩
    · exact ⟨_, ((hloop.tails b).mp ht).1⟩
    · exact ⟨c, hc⟩
  obtain ⟨n, hkn, hnN, hin, hleave, hnot⟩ := C.exists_leave hn hsucc hk (hhead ▸ hs.header_mem hloop)
  obtain ⟨-, hexit⟩ := hs.leave hloop (hin n hkn (Nat.le_refl _)) hleave.edge hnot
  refine ⟨n + 1, hnN, ⟨hhead, by rw [hmove.done, hhead]⟩, ⟨k, rfl, hout⟩, fun m hm hm' => hin m hm (by omega),
    ⟨hexit, by rw [hleave.done, hexit]⟩, by omega, ?_⟩
  have hnot : l.contains (M k).block = false := by simpa [Loop.contains] using hout
  rw [hmove.rounds, hhead, hs.header, Func.tally_header hl, hnot]
  rfl

namespace Stay

variable (S : Stay f l sh M a x) (hx : x ≤ N)

include S hx

omit hs in
theorem mono (ha : a ≤ n) (hle : n ≤ j) (hj : j < x) : (M n).rounds l.header ≤ (M j).rounds l.header :=
  C.rounds_mono hn hl hle (by omega) fun m hm hm' => S.inside m (by omega) (by omega)

/-- On coming back to the header, control begins a new round. -/
theorem lt_of_header (ha : a ≤ n) (hnj : n < j) (hj : j < x) (hhead : (M j).StartsAt f sh.header) :
    (M n).rounds l.header < (M j).rounds l.header := by
  obtain ⟨j, rfl⟩ := Nat.exists_eq_add_of_lt (Nat.lt_of_le_of_lt (Nat.zero_le n) hnj)
  simp only [Nat.zero_add] at *
  have hmove := C.moves_of_starts hn (by omega) hhead
  have hin : l.contains (M j).block = true := by simpa [Loop.contains] using S.inside j (by omega) (by omega)
  have hmono := S.mono C hn hl hx ha (show n ≤ j by omega) (by omega)
  rw [hmove.rounds, hhead.1, hs.header, Func.tally_header hl, hin, if_pos rfl]
  omega

/-- Behind the latch, control begins a new round or leaves. -/
theorem latch_cases (ha : a ≤ j) (hj : j < x) (hlatch : (M j).EndsAt f sh.latch) :
    (j + 1 = x ∧ (M (j + 1)).block = sh.exit) ∨
      (j + 1 < x ∧ (M (j + 1)).block = sh.header ∧ (M (j + 1)).rounds l.header = (M j).rounds l.header + 1) := by
  have hmove := C.moves_of_ends hn (show j < N by omega) hlatch
  have hedge := hmove.edge
  rw [hlatch.1, hs.mem_successors_latch] at hedge
  rcases Nat.lt_or_ge (j + 1) x with hlt | hge
  · have hin := S.inside (j + 1) (by omega) hlt
    rcases hedge with h | h
    · refine Or.inr ⟨hlt, h, ?_⟩
      have hmem : l.contains (M j).block = true := by simpa [Loop.contains] using S.inside j ha hj
      rw [hmove.rounds, h, hs.header, Func.tally_header hl, hmem, if_pos rfl]
    · exact absurd (h ▸ hin) (hs.exit_not_mem (isLoop_of_mem hl))
  · obtain rfl : x = j + 1 := by omega
    exact Or.inl ⟨rfl, S.leaves.1⟩

/-- A loop is left from its latch. -/
theorem last : ∃ k, x = k + 1 ∧ a ≤ k ∧ (M k).EndsAt f sh.latch ∧ (M k).Moves f (M x) := by
  have hlt := S.lt
  obtain ⟨k, rfl⟩ := Nat.exists_eq_add_of_lt (Nat.lt_of_le_of_lt (Nat.zero_le a) hlt)
  simp only [Nat.zero_add] at *
  have hmove := C.moves_of_starts hn hx S.leaves
  have hloop := isLoop_of_mem hl
  obtain ⟨hlatch, -⟩ := hs.leave hloop (S.inside k (by omega) (by omega)) hmove.edge
    (S.leaves.1 ▸ hs.exit_not_mem hloop)
  exact ⟨k, rfl, by omega, ⟨hlatch, by rw [← hlatch]; exact hmove.last⟩, hmove⟩

end Stay

end Stay

/-! ## Both parts of the pair -/

/-- A pass through a pair of loops, from the top to the turn and on to the block behind the pair. -/
structure Crossing (f : Func) (l₁ l₂ : Loop) (p : Plan) (M : Nat → Moment) (N s t e : Nat) : Prop where
  starts : (M s).StartsAt f p.top
  front : ∀ k, s ≤ k → k < t → p.Front l₁ (M k).block
  turns : (M t).StartsAt f p.turn
  back : ∀ k, t ≤ k → k < e → p.Back l₂ (M k).block
  ends : (M e).StartsAt f p.after
  start_lt : s < t
  turn_lt : t < e
  le : e ≤ N

section Crossing

variable {f : Func} {l₁ l₂ : Loop} {p : Plan} {args : List Word} {limit N i j k n s t e : Nat} {M : Nat → Moment}
variable {r : RunResult} {b d : BlockId} {v : ValueId}
variable (L : Layout f l₁ l₂ p) (hv : f.Valid) (C : f.Completes args limit M N r)

include L hv C

theorem exists_crossing (hs : s ≤ N) (hstart : (M s).StartsAt f p.top) : ∃ t e, Crossing f l₁ l₂ p M N s t e := by
  obtain ⟨m, hsm, hmN, hfront, hmove, hnot⟩ := C.exists_leave hv.once (R := p.Front l₁)
    (fun b hb => L.exists_successor (Or.inl hb)) hs (hstart.1 ▸ Layout.top_front)
  have hturn := (L.front_step (hfront m hsm (Nat.le_refl _)) hmove.edge).resolve_left hnot
  obtain ⟨n, hmn, hnN, hback, hmove', hnot'⟩ := C.exists_leave hv.once (R := p.Back l₂)
    (fun b hb => L.exists_successor (Or.inr hb)) hmN (hturn ▸ Layout.turn_back)
  have hafter := (L.back_step (hback n hmn (Nat.le_refl _)) hmove'.edge).resolve_left hnot'
  exact ⟨m + 1, n + 1, hstart, fun k hk hk' => hfront k hk (by omega), ⟨hturn, by rw [hmove.done, hturn]⟩,
    fun k hk hk' => hback k hk (by omega), ⟨hafter, by rw [hmove'.done, hafter]⟩, by omega, by omega, hnN⟩

namespace Crossing

variable (P : Crossing f l₁ l₂ p M N s t e)

include P

omit L in
theorem last_front : ∃ k, t = k + 1 ∧ s ≤ k ∧ (M k).Moves f (M t) := by
  obtain ⟨k, rfl⟩ := Nat.exists_eq_add_of_lt P.start_lt
  exact ⟨s + k, rfl, Nat.le_add_right _ _, C.moves_of_starts hv.once (by have := P.turn_lt; have := P.le; omega) P.turns⟩

omit L in
theorem last_back : ∃ k, e = k + 1 ∧ t ≤ k ∧ (M k).Moves f (M e) := by
  obtain ⟨k, rfl⟩ := Nat.exists_eq_add_of_lt P.turn_lt
  exact ⟨t + k, rfl, Nat.le_add_right _ _, C.moves_of_starts hv.once P.le P.ends⟩

omit hv C P in
theorem guardPhi_of_turn (h : v ∈ phiDests f p.turn) : p.GuardPhi f v := by
  unfold Plan.turn at h
  cases hg : p.guards with
  | none =>
    rw [hg] at h
    exact absurd h (Layout.no_phi L.plan.code.preheader₂)
  | some g =>
    rw [hg] at h
    exact ⟨g, hg, h⟩

/-- The front leaves the values of the back alone. -/
theorem front_env (hown : p.Own f l₂ v) (hsk : s ≤ k) (hkt : k ≤ t) :
    (M k).machine.env.get? v = (M s).machine.env.get? v := by
  obtain ⟨⟨b, hb, hvb⟩, hnot⟩ := hown
  have hle := P.le
  have hlt := P.turn_lt
  induction k, hsk using Nat.le_induction with
  | base => rfl
  | succ n hsn ih =>
    refine Eq.trans ?_ (ih (by omega))
    rcases Nat.lt_or_ge (n + 1) t with hnt | hnt
    · refine C.env_step hv.once (by omega) fun hmem => ?_
      exact L.not_back_of_front (P.front (n + 1) (by omega) hnt) (Func.destsAt_unique hv.once hvb hmem ▸ hb)
    · obtain ⟨k, hk, -, hmove⟩ := P.last_front hv C
      obtain rfl : n = k := by omega
      rw [← hk]
      refine hmove.frame v fun hmem => hnot (guardPhi_of_turn L ?_)
      rwa [P.turns.1] at hmem

/-- The back leaves alone what is not its own. -/
theorem back_env (hnot : ¬p.Own f l₂ v) (htk : t ≤ k) (hke : k < e) :
    (M k).machine.env.get? v = (M t).machine.env.get? v := by
  have hle := P.le
  induction k, htk using Nat.le_induction with
  | base => rfl
  | succ n htn ih =>
    refine Eq.trans ?_ (ih (by omega))
    by_cases hmem : v ∈ f.destsAt (M (n + 1)).block
    · have hback := P.back (n + 1) (by omega) hke
      have hphi : p.GuardPhi f v := by
        by_contra hphi
        exact hnot ⟨⟨_, hback, hmem⟩, hphi⟩
      obtain ⟨g, hg, hphi⟩ := hphi
      have hblock := Func.destsAt_unique hv.once (Layout.mem_destsAt.mpr (Or.inl hphi)) hmem
      rcases C.step_cases hv.once (show n < N by omega) with ⟨i, act, h⟩ | h
      · refine h.env fun hdest => Layout.not_mem_bodyDests hv hphi (c := (M n).block) ?_
        exact List.mem_filterMap.mpr ⟨i, C.mem_bodyAt hv.once (by omega) h.instr, hdest⟩
      · have hedge := h.edge
        rw [← hblock, ← Plan.turn_guarded hg] at hedge
        exact absurd (P.back n (by omega) (by omega))
          (L.not_back_of_front (L.into_turn (C.live hv.once (by omega)) hedge))
    · exact C.env_step hv.once (by omega) hmem

omit hv C P in
theorem top_not_successor (hb : p.Front l₁ b) : p.top ∉ f.successors b := by
  intro hstep
  rcases hb with h | rfl | ⟨g, hg, h⟩
  · obtain ⟨-, hexit⟩ := L.shape₁.leave L.loop₁ h hstep L.top_out₁
    rcases L.exit₁_cases with ⟨e, -⟩ | ⟨g, hg⟩
    · exact L.not_back_of_front Layout.top_front (hexit.trans e ▸ Layout.turn_back)
    · have hn := L.nodup_frame hg
      rw [Plan.top_guarded hg] at hexit
      simp only [List.nodup_cons, List.mem_cons, not_or] at hn
      exact hn.1.2.1 hexit
  · exact L.top_out₁ (L.mem_successors_preheader₁.mp hstep ▸ L.header₁_mem)
  · have hn := L.nodup_frame hg
    simp only [List.nodup_cons, List.mem_cons, not_or] at hn
    rw [Plan.top_guarded hg] at hstep
    rcases h with rfl | rfl
    · rcases (L.mem_successors_guard₁ hg).mp hstep with h | h
      · exact hn.1.1 h
      · exact hn.1.2.2.1 h
    · exact hn.1.2.2.1 ((L.mem_successors_exit₁ hg).mp hstep)

/-- The top is left for good. -/
theorem not_top (hi : (M i).EndsAt f p.top ∨ (M i).block ≠ p.top) (hsi : s ≤ i) (hin : i < n) (hnt : n ≤ t) :
    (M n).block ≠ p.top := by
  have hle := P.le
  have hlt := P.turn_lt
  have hpast : ∀ m, i ≤ m → m ≤ t → (M m).EndsAt f p.top ∨ (M m).block ≠ p.top := by
    intro m him
    induction m, him using Nat.le_induction with
    | base => exact fun _ => hi
    | succ m him ih =>
      intro hmt
      refine Or.inr fun htop => ?_
      rcases C.step_cases hv.once (show m < N by omega) with ⟨instr, act, h⟩ | h
      · rcases ih (by omega) with hends | hne
        · have := h.instr
          rw [hends.1, hends.2] at this
          cases this
        · exact hne (h.block ▸ htop)
      · exact top_not_successor L (P.front m (by omega) (by omega)) (htop ▸ h.edge)
  rcases hpast n hin.le hnt with hends | hne
  · intro htop
    obtain ⟨m, rfl⟩ := Nat.exists_eq_add_of_lt hin
    rcases C.step_cases hv.once (show i + m < N by omega) with ⟨instr, act, h⟩ | h
    · rcases hpast (i + m) (by omega) (by omega) with hends' | hne
      · have := h.instr
        rw [hends'.1, hends'.2] at this
        cases this
      · exact hne (h.block ▸ htop)
    · exact top_not_successor L (P.front (i + m) (by omega) (by omega)) (htop ▸ h.edge)
  · exact hne

/-- What is defined above the pair or in its top is settled behind the top. -/
theorem settled_above (hd : f.Dominates d p.top) (hvd : v ∈ f.destsAt d)
    (hi : (M i).EndsAt f p.top ∨ (M i).block ≠ p.top) (hsi : s ≤ i) (hit : i ≤ t) :
    (M t).machine.env.get? v = (M i).machine.env.get? v := by
  have hle := P.le
  have hlt := P.turn_lt
  refine C.env_frame hv.once hit (by omega) fun n hin hnt hmem => ?_
  obtain rfl := Func.destsAt_unique hv.once hvd hmem
  rcases Nat.lt_or_ge n t with hnt' | hnt'
  · have hfront := P.front n (by omega) hnt'
    exact P.not_top L hv C hi hsi hin hnt (hd.antisymm (L.top_dominates_front hfront) (C.live hv.once (by omega)))
  · obtain rfl : n = t := by omega
    have hback : p.Back l₂ (M n).block := P.turns.1 ▸ Layout.turn_back
    have htop := hd.antisymm (L.top_dominates_back hback) (C.live hv.once (by omega))
    exact L.not_back_of_front (htop ▸ Layout.top_front) hback

/-- What the back reads without having computed it is settled behind the top, unless it is of the first loop. -/
theorem settled (hav : f.AvailableOut b v) (hb : p.Back l₂ b) (hown : ¬p.Own f l₂ v) (hphi : ¬p.GuardPhi f v)
    (hi : (M i).EndsAt f p.top ∨ (M i).block ≠ p.top) (hsi : s ≤ i) (hit : i ≤ t) :
    (M t).machine.env.get? v = (M i).machine.env.get? v ∨
      p.guards = none ∧ ∃ d ∈ l₁.blocks, v ∈ f.destsAt d ∧ f.Dominates d p.first.latch := by
  have hle := P.le
  have hlt := P.turn_lt
  rcases hav with hparam | ⟨d, hdom, hvd⟩
  · exact Or.inl (C.env_frame hv.once hit (by omega) fun n _ _ hmem => Func.not_mem_params hv.once hmem hparam)
  · have hnot : ¬p.Back l₂ d := fun hd => hown ⟨⟨d, hd, hvd⟩, hphi⟩
    rcases L.dominates_back_cases hb hdom hnot with htop | ⟨hg, hmem, hlatch⟩
    · exact Or.inl (P.settled_above L hv C htop hvd hi hsi hit)
    · exact Or.inr ⟨hg, d, hmem, hvd, hlatch⟩

omit hv in
/-- The front does not turn in the middle of a block. -/
theorem code_front (hsi : s ≤ i) (hit : i < t) (hb : (M i).StartsAt f b) (hn : n ≤ (f.bodyAt b).length) : i + n < t := by
  by_contra hge
  have hle := P.le
  have hlt := P.turn_lt
  obtain ⟨k, rfl⟩ := Nat.exists_eq_add_of_le hit.le
  have hblock := (C.code (show i ≤ N by omega) hb (show k ≤ _ by omega)).2.1
  exact L.not_back_of_front (hb.1 ▸ P.front i hsi hit) (hblock ▸ P.turns.1 ▸ Layout.turn_back)

omit hv in
/-- The back is not left in the middle of a block. -/
theorem code_back (htj : t ≤ j) (hje : j < e) (hb : (M j).StartsAt f b) (hn : n ≤ (f.bodyAt b).length) : j + n < e := by
  by_contra hge
  have hle := P.le
  obtain ⟨k, rfl⟩ := Nat.exists_eq_add_of_le hje.le
  have hblock := (C.code (show j ≤ N by omega) hb (show k ≤ _ by omega)).2.1
  exact L.after_not_back (P.ends.1 ▸ hblock ▸ hb.1 ▸ P.back j htj hje)

end Crossing

/-! ## Both loops -/

/-- A crossing that goes through both loops. -/
structure Visit (f : Func) (l₁ l₂ : Loop) (p : Plan) (M : Nat → Moment) (N s t e a₁ x₁ a₂ x₂ : Nat) : Prop
    extends Crossing f l₁ l₂ p M N s t e where
  stay₁ : Stay f l₁ p.first M a₁ x₁
  stay₂ : Stay f l₂ p.second M a₂ x₂
  lt₁ : s < a₁
  le₁ : x₁ ≤ t
  lt₂ : t < a₂
  le₂ : x₂ ≤ e
  exit₁ : ∀ k, x₁ ≤ k → k < t → (M k).block = p.first.exit ∧ ∃ g, p.guards = some g
  exit₂ : ∀ k, x₂ ≤ k → k < e → (M k).block = p.second.exit
  quiet : ∀ k, t ≤ k → k < a₂ → (M k).access? f = none

omit L in
/-- Control stays in a block with one successor until it gets there. -/
theorem stays_in_block {x y : Nat} {c : BlockId} (hx : (M x).block = b) (hy : y ≤ N)
    (hsucc : ∀ a, a ∈ f.successors b → a = c) (hnot : ∀ k, x ≤ k → k < y → (M k).block ≠ c) :
    ∀ k, x ≤ k → k < y → (M k).block = b := by
  intro k hxk
  induction k, hxk using Nat.le_induction with
  | base => exact fun _ => hx
  | succ n hxn ih =>
    intro hny
    have hb := ih (by omega)
    rcases C.step_cases hv.once (show n < N by omega) with ⟨i, act, h⟩ | h
    · exact h.block.trans hb
    · exact absurd (hsucc _ (hb ▸ h.edge)) (hnot (n + 1) (by omega) hny)

/-- Behind the first loop there is only its exit before the turn, and that only around guarded loops. -/
theorem Crossing.at_exit₁ (P : Crossing f l₁ l₂ p M N s t e) {x : Nat} (hsx : s ≤ x) (hx : (M x).block = p.first.exit) :
    ∀ k, x ≤ k → k < t → (M k).block = p.first.exit ∧ ∃ g, p.guards = some g := by
  have hle := P.le
  have hlt := P.turn_lt
  intro k hxk hkt
  rcases L.exit₁_cases with ⟨hturn, -⟩ | ⟨g, hg⟩
  · exact absurd (hx ▸ hturn ▸ Layout.turn_back) (L.not_back_of_front (P.front x hsx (by omega)))
  · refine ⟨?_, g, hg⟩
    refine stays_in_block hv C hx (by omega) (fun a ha => (L.mem_successors_exit₁ hg).mp ha)
      (fun k hxk hkt h => L.not_back_of_front (P.front k (by omega) hkt) ?_) k hxk hkt
    exact h ▸ Or.inr (Or.inr ⟨g, hg, Or.inl rfl⟩)

/-- Behind the second loop there is only its exit before the end of the crossing. -/
theorem Crossing.at_exit₂ (P : Crossing f l₁ l₂ p M N s t e) {x : Nat} (htx : t ≤ x) (hx : (M x).block = p.second.exit) :
    ∀ k, x ≤ k → k < e → (M k).block = p.second.exit := by
  intro k hxk hke
  rcases Layout.exit₂_cases (p := p) with ⟨hafter, -⟩ | ⟨g, hg⟩
  · exact absurd (P.back x htx (by omega)) fun h => L.after_not_back (hafter ▸ hx ▸ h)
  · refine stays_in_block hv C hx P.le (fun a ha => (L.mem_successors_exit₂ hg).mp ha)
      (fun k hxk hke h => L.after_not_back ?_) k hxk hke
    exact Plan.after_guarded hg ▸ h ▸ P.back k (by omega) hke

/-- Once the first loop is left, its rounds are counted. -/
theorem Crossing.rounds_left (P : Crossing f l₁ l₂ p M N s t e) {x k k' : Nat} (hsx : s ≤ x)
    (hx : (M x).block = p.first.exit) (hk : k + 1 = x) (hkk' : k ≤ k') (hk' : k' < e) :
    (M k').rounds l₁.header = (M k).rounds l₁.header := by
  have hle := P.le
  refine C.rounds_frame hv.once hkk' (by omega) fun n hkn hnk h => ?_
  have hmem : (M n).block ∈ l₁.blocks := h ▸ L.shape₁.header ▸ L.header₁_mem
  rcases Nat.lt_or_ge n t with hnt | hnt
  · exact L.exit₁_out.1 ((P.at_exit₁ L hv C hsx hx n (by omega) hnt).1 ▸ hmem)
  · exact L.not_back_of_front (Or.inl hmem) (P.back n hnt (by omega))

/-- Control that leaves both preheaders for the loops goes through both. -/
theorem Crossing.exists_visit (P : Crossing f l₁ l₂ p M N s t e) (hsi : s ≤ i) (hit : i < t) (htj : t ≤ j) (hje : j < e)
    (hi : (M i).EndsAt f p.first.preheader) (hj : (M j).EndsAt f p.second.preheader)
    (hquiet : ∀ k, t ≤ k → k ≤ j → (M k).access? f = none) :
    ∃ x₁ x₂, Visit f l₁ l₂ p M N s t e (i + 1) x₁ (j + 1) x₂ := by
  have hle := P.le
  have hlt := P.turn_lt
  have hmove₁ := C.moves_of_ends hv.once (show i < N by omega) hi
  have hmove₂ := C.moves_of_ends hv.once (show j < N by omega) hj
  have hhead₁ := L.mem_successors_preheader₁.mp (hi.1 ▸ hmove₁.edge)
  have hhead₂ := L.mem_successors_preheader₂.mp (hj.1 ▸ hmove₂.edge)
  obtain ⟨x₁, hx₁, S₁⟩ := exists_stay C hv.once L.siblings.first L.shape₁ (by omega) hmove₁ (hi.1 ▸ L.preheader₁_out.1) hhead₁
  obtain ⟨x₂, hx₂, S₂⟩ := exists_stay C hv.once L.siblings.second L.shape₂ (by omega) hmove₂ (hj.1 ▸ L.preheader₂_out.2) hhead₂
  have hlt₁ := S₁.lt
  have hlt₂ := S₂.lt
  have hne : i + 1 ≠ t := by
    rintro rfl
    exact L.not_back_of_front (Or.inl L.header₁_mem) (hhead₁ ▸ P.turns.1 ▸ Layout.turn_back)
  have hne' : j + 1 ≠ e := by
    rintro rfl
    exact L.after_not_back (P.ends.1 ▸ hhead₂ ▸ Or.inl L.header₂_mem)
  have hle₁ : x₁ ≤ t := by
    by_contra hgt
    exact L.not_back_of_front (Or.inl (S₁.inside t (by omega) (by omega))) (P.turns.1 ▸ Layout.turn_back)
  have hle₂ : x₂ ≤ e := by
    by_contra hgt
    exact L.after_not_back (P.ends.1 ▸ Or.inl (S₂.inside e (by omega) (by omega)))
  have hleft : s ≤ x₁ := by omega
  refine ⟨x₁, x₂, P, S₁, S₂, by omega, hle₁, by omega, hle₂, P.at_exit₁ L hv C hleft S₁.leaves.1,
    P.at_exit₂ L hv C (by omega) S₂.leaves.1, fun k hk hk' => hquiet k hk (by omega)⟩

omit L in
/-- Code that may move accesses no cell. -/
theorem access?_of_movable (hmov : (Snapshot.of f).movable b = .ok ()) (hk : k ≤ N) (hb : (M k).block = b) :
    (M k).access? f = none := by
  cases hi : f.instrAt? (M k).block (M k).done with
  | none => rw [Moment.access?, hi]; rfl
  | some i =>
    refine Moment.access?_eq_none hi ?_
    have hmem : i ∈ f.bodyAt b := hb ▸ C.mem_bodyAt hv.once hk hi
    unfold Snapshot.movable at hmov
    split at hmov
    · cases hmov
    · rename_i hnone
      have := List.findIdx?_eq_none_iff.mp hnone i hmem
      simp only [Bool.or_eq_false_iff] at this
      exact this.1

namespace Visit

variable {a₁ x₁ a₂ x₂ : Nat} {c : Nat × Nat} {w w' : Bool} (V : Visit f l₁ l₂ p M N s t e a₁ x₁ a₂ x₂)
variable (H : Faithful f l₁ l₂ p args limit)

include V

omit hv in
theorem not_reentered (hi : a₁ ≤ i) (hj : j < e) : f.NotReentered args limit l₁ i j := by
  intro n m m' hin hnj hm hm' hhead
  have hle := V.le
  obtain rfl := Option.some.inj ((C.moment n (by omega)).symm.trans hm)
  obtain rfl := Option.some.inj ((C.moment (n + 1) (by omega)).symm.trans hm')
  rcases Nat.lt_or_ge n x₁ with hn | hn
  · exact V.stay₁.inside n (by omega) hn
  · exfalso
    have hmem : (M (n + 1)).block ∈ l₁.blocks := hhead ▸ L.shape₁.header ▸ L.header₁_mem
    rcases Nat.lt_or_ge (n + 1) t with hnt | hnt
    · exact L.exit₁_out.1 ((V.exit₁ (n + 1) (by omega) hnt).1 ▸ hmem)
    · exact L.not_back_of_front (Or.inl hmem) (V.back (n + 1) hnt (by omega))

include H in
/-- Both loops are left after the same number of rounds. -/
theorem agree (hk : k + 1 = x₁) (hn : n + 1 = x₂) : (M k).rounds l₁.header = (M n).rounds l₂.header := by
  have := V.stay₁.lt
  have := V.stay₂.lt
  have := V.lt₁
  have := V.lt₂
  have := V.le₁
  have := V.le₂
  have := V.le
  have hout : (M (n + 1)).block ∉ l₂.blocks := by
    rw [hn, V.stay₂.leaves.1]
    exact L.exit₂_out.2
  rw [← H.rounds n _ _ (C.moment n (by omega)) (C.moment (n + 1) (by omega)) (V.stay₂.inside n (by omega) (by omega)) hout]
  exact (V.rounds_left L hv C (by omega) V.stay₁.leaves.1 hk (by omega) (by omega)).symm

include H in
/-- In the same round, both latches leave or none does. -/
theorem latches_agree (ha₁ : a₁ ≤ i) (hx₁ : i < x₁) (hi : (M i).EndsAt f p.first.latch) (ha₂ : a₂ ≤ j) (hx₂ : j < x₂)
    (hj : (M j).EndsAt f p.second.latch) (hr : (M i).rounds l₁.header = (M j).rounds l₂.header) :
    i + 1 = x₁ ↔ j + 1 = x₂ := by
  have hle₁ : x₁ ≤ N := by have := V.le₁; have := V.turn_lt; have := V.le; omega
  have hle₂ : x₂ ≤ N := V.le₂.trans V.le
  obtain ⟨k₁, hk₁, hak₁, -⟩ := V.stay₁.last C hv.once L.siblings.first L.shape₁ hle₁
  obtain ⟨k₂, hk₂, hak₂, -⟩ := V.stay₂.last C hv.once L.siblings.second L.shape₂ hle₂
  have hagree := V.agree L hv C H hk₁.symm hk₂.symm
  constructor
  · intro hlast
    obtain rfl : i = k₁ := by omega
    rcases V.stay₂.latch_cases C hv.once L.siblings.second L.shape₂ hle₂ ha₂ hx₂ hj with h | ⟨hlt, -, hnext⟩
    · exact h.1
    · have := V.stay₂.mono C hv.once L.siblings.second hle₂ (show a₂ ≤ j + 1 by omega) (show j + 1 ≤ k₂ by omega) (by omega)
      omega
  · intro hlast
    obtain rfl : j = k₂ := by omega
    rcases V.stay₁.latch_cases C hv.once L.siblings.first L.shape₁ hle₁ ha₁ hx₁ hi with h | ⟨hlt, -, hnext⟩
    · exact h.1
    · have := V.stay₁.mono C hv.once L.siblings.first hle₁ (show a₁ ≤ i + 1 by omega) (show i + 1 ≤ k₁ by omega) (by omega)
      omega

include H

omit hv in
/-- In the same round, the induction variable that stays holds what the other one holds. -/
theorem induction_eq (hu : p.unify = true) (ha₁ : a₁ ≤ i) (hx₁ : i < x₁) (ha₂ : a₂ ≤ j) (hx₂ : j < x₂)
    (hr : (M i).rounds l₁.header = (M j).rounds l₂.header) :
    (M j).machine.env.get? p.second.induction = (M i).machine.env.get? p.first.induction := by
  have := V.le₁
  have := V.lt₂
  have := V.le₂
  have := V.le
  exact H.induction hu i j _ _ (by omega) (V.not_reentered L C ha₁ (by omega)) (C.moment i (by omega)) (C.moment j (by omega))
    (V.stay₁.inside i ha₁ hx₁) (V.stay₂.inside j ha₂ hx₂) hr

omit hv in
/-- What the first loop accesses in a later round than the second, neither of them writes. -/
theorem reads_only (ha₁ : a₁ ≤ i) (hx₁ : i < x₁) (ha₂ : a₂ ≤ j) (hx₂ : j < x₂)
    (hr : (M j).rounds l₂.header < (M i).rounds l₁.header) (hi : (M i).access? f = some (c, w))
    (hj : (M j).access? f = some (c, w')) : w = false ∧ w' = false := by
  have := V.le₁
  have := V.lt₂
  have := V.le₂
  have := V.le
  exact H.cells i j _ _ c w w' (by omega) (V.not_reentered L C ha₁ (by omega)) (C.moment i (by omega))
    (C.moment j (by omega)) (V.stay₁.inside i ha₁ hx₁) (V.stay₂.inside j ha₂ hx₂) hr hi hj

omit L hv H C V in
/-- Up to a moment, the back accesses cells in earlier rounds only. -/
def Behind (f : Func) (l₂ : Loop) (M : Nat → Moment) (t a₂ x₂ j round : Nat) : Prop :=
  ∀ m, t ≤ m → m < j → (M m).access? f = none ∨ a₂ ≤ m ∧ m < x₂ ∧ (M m).rounds l₂.header < round

omit H in
theorem behind_of_header (hx₂ : j < x₂) (hj : (M j).StartsAt f p.second.header) :
    Behind f l₂ M t a₂ x₂ j ((M j).rounds l₂.header) := by
  intro m htm hmj
  rcases Nat.lt_or_ge m a₂ with hlt | hge
  · exact Or.inl (V.quiet m htm hlt)
  · refine Or.inr ⟨hge, by omega, ?_⟩
    exact V.stay₂.lt_of_header C hv.once L.siblings.second L.shape₂ (V.le₂.trans V.le) hge hmj hx₂ hj

omit L hv H C V in
theorem Behind.extend {round : Nat} (h : Behind f l₂ M t a₂ x₂ j round)
    (hquiet : ∀ m, j ≤ m → m < k → (M m).access? f = none) : Behind f l₂ M t a₂ x₂ k round := by
  intro m htm hmk
  rcases Nat.lt_or_ge m j with hlt | hge
  · exact h m htm hlt
  · exact Or.inl (hquiet m hge hmk)

omit hv in
/-- What the first loop accesses, the back has not written in earlier rounds. -/
theorem not_written_behind (ha₁ : a₁ ≤ i) (hx₁ : i < x₁) (h : Behind f l₂ M t a₂ x₂ j ((M i).rounds l₁.header))
    (hi : (M i).access? f = some (c, w)) : ∀ m, t ≤ m → m < j → (M m).access? f ≠ some (c, true) := by
  intro m htm hmj hm
  rcases h m htm hmj with hnone | ⟨ha₂, hx₂, hr⟩
  · rw [hnone] at hm
    cases hm
  · cases (V.reads_only L C H ha₁ hx₁ ha₂ hx₂ hr hi hm).2

/-- What the second loop accesses, the front does not write in later rounds. -/
theorem not_written_ahead (ha₁ : a₁ ≤ i) (hx₁ : i < x₁) (hi : (M i).EndsAt f p.first.latch) (ha₂ : a₂ ≤ j) (hx₂ : j < x₂)
    (hr : (M i).rounds l₁.header = (M j).rounds l₂.header) (hj : (M j).access? f = some (c, w)) :
    ∀ m, i ≤ m → m < t → (M m).access? f ≠ some (c, true) := by
  intro m him hmt hm
  have := V.turn_lt
  have := V.le
  have hle₁ : x₁ ≤ N := by have := V.le₁; omega
  rcases Nat.eq_or_lt_of_le him with rfl | him
  · rw [Moment.access?, hi.1, hi.2] at hm
    cases hm
  · rcases Nat.lt_or_ge m x₁ with hmx | hmx
    · rcases V.stay₁.latch_cases C hv.once L.siblings.first L.shape₁ hle₁ ha₁ hx₁ hi with h | ⟨hlt, -, hnext⟩
      · omega
      · have hmono := V.stay₁.mono C hv.once L.siblings.first hle₁ (show a₁ ≤ i + 1 by omega) (show i + 1 ≤ m by omega) hmx
        cases (V.reads_only L C H (show a₁ ≤ m by omega) hmx ha₂ hx₂ (by omega) hm hj).1
    · obtain ⟨hb, g, hg⟩ := V.exit₁ m hmx hmt
      rw [access?_of_movable hv C (L.plan.code.moveGuard g hg).2 (by omega) hb] at hm
      cases hm

omit H in
/-- A value of the first loop that is computed anew in every round keeps its datum up to the turn. -/
theorem repeats {depth : Nat} (hrep : (Snapshot.of f).repeats? l₁ depth v = some true) (ha₁ : a₁ ≤ i) (hx₁ : i < x₁)
    (hav : f.AvailableBefore (M i).block (M i).done v) (hd : d ∈ l₁.blocks) (hvd : v ∈ f.destsAt d)
    (hdom : f.Dominates d p.first.latch) : (M t).machine.env.get? v = (M i).machine.env.get? v := by
  have := V.turn_lt
  have := V.le
  have := V.le₁
  obtain ⟨k, hk, hak, hlatch, -⟩ := V.stay₁.last C hv.once L.siblings.first L.shape₁ (by omega)
  have hactive : ∀ n, a₁ ≤ n → n < x₁ → f.Activation args limit l₁ a₁ (M n) := by
    intro n han hnx
    obtain ⟨m, rfl⟩ := Nat.exists_eq_add_of_le han
    refine Func.Activation.of_moments (fun k M₀ hk hM₀ => ?_) (fun M₀ hM₀ => ?_) (n := m) (fun k hk M₀ hM₀ => ?_)
      (C.moment _ (by omega))
    · obtain ⟨k', hk', hout⟩ := V.stay₁.before
      obtain rfl : k = k' := by omega
      obtain rfl := Option.some.inj ((C.moment k (by omega)).symm.trans hM₀)
      exact hout
    · obtain rfl := Option.some.inj ((C.moment a₁ (by omega)).symm.trans hM₀)
      exact V.stay₁.enters.1.trans L.shape₁.header
    · obtain rfl := Option.some.inj ((C.moment (a₁ + k) (by omega)).symm.trans hM₀)
      exact V.stay₁.inside _ (by omega) (by omega)
  have hend : f.AvailableBefore (M k).block (M k).done v := by
    rw [hlatch.1, Func.availableBefore_end hlatch.2]
    exact Or.inr ⟨d, hdom, hvd⟩
  rw [← Func.Activation.get?_of_repeats? hv L.loop₁ hrep (hactive i ha₁ hx₁) (hactive k hak (by omega)) hav hend]
  refine C.env_frame hv.once (by omega) (by omega) fun n hkn hnt hmem => ?_
  obtain rfl := Func.destsAt_unique hv.once hvd hmem
  rcases Nat.lt_or_ge n t with hlt | hge
  · exact L.exit₁_out.1 ((V.exit₁ n (by omega) hlt).1 ▸ hd)
  · obtain rfl : n = t := by omega
    exact L.not_back_of_front (Or.inl hd) (V.turns.1 ▸ Layout.turn_back)

end Visit

end Crossing

end SsaFusion
