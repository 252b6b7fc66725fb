import SsaFusion.Proofs.Fusion.Guards
import SsaFusion.Proofs.Fusion.Sharing
import SsaFusion.Proofs.Symbolic.Coding

/-!
# Visits of both loops

A run that returns comes to the second loop of a pair only on a visit of both loops: it has come from the top of the pair since
it was there last (`exists_start`), so it is in a crossing, and a crossing that does not pass both loops by goes through both
(`exists_visit_of_mem`). On a visit, what is settled in both loops and computed by the first alike in every round, if at all,
reads the same at all moments of both stays (`coded_eq`).
-/

namespace SsaFusion

/-- A block is in front of the turn or behind it. -/
def Plan.InPair (p : Plan) (l₁ l₂ : Loop) (b : BlockId) : Prop :=
  p.Front l₁ b ∨ p.Back l₂ b

/-- Control was last at the top of a pair at one moment and has been in the pair from there to another. -/
structure InPairSince (f : Func) (l₁ l₂ : Loop) (p : Plan) (M : Nat → Moment) (s k : Nat) : Prop where
  starts : (M s).StartsAt f p.top
  last : ∀ n, s < n → n ≤ k → ¬(M n).StartsAt f p.top
  inside : ∀ n, s ≤ n → n ≤ k → p.InPair l₁ l₂ (M n).block

namespace InPairSince

variable {f : Func} {l₁ l₂ : Loop} {p : Plan} {M : Nat → Moment} {s k : Nat}

theorem here (hstart : (M k).StartsAt f p.top) (hin : p.InPair l₁ l₂ (M k).block) : InPairSince f l₁ l₂ p M k k := by
  refine ⟨hstart, fun n hn hn' => by omega, fun n hn hn' => ?_⟩
  obtain rfl : n = k := by omega
  exact hin

theorem succ (h : InPairSince f l₁ l₂ p M s k) (hnot : ¬(M (k + 1)).StartsAt f p.top)
    (hin : p.InPair l₁ l₂ (M (k + 1)).block) : InPairSince f l₁ l₂ p M s (k + 1) := by
  refine ⟨h.starts, fun n hn hn' => ?_, fun n hn hn' => ?_⟩
  · rcases Nat.lt_or_eq_of_le hn' with hlt | rfl
    · exact h.last n hn (by omega)
    · exact hnot
  · rcases Nat.lt_or_eq_of_le hn' with hlt | rfl
    · exact h.inside n hn (by omega)
    · exact hin

end InPairSince

namespace PairRun

variable {f : Func} {l₁ l₂ : Loop} {p : Plan} {args : List Word} {limit N k s t e : Nat} {M : Nat → Moment} {r : RunResult}
variable (W : PairRun f l₁ l₂ p args limit M N r)

include W

/-- Control in the pair has been there since it was at the top last. -/
theorem exists_start (hk : k ≤ N) (hin : p.InPair l₁ l₂ (M k).block) : ∃ s ≤ k, InPairSince f l₁ l₂ p M s k := by
  have L := W.layout
  have C := W.completes
  induction k with
  | zero =>
    have hstart := C.start (C.moment 0 (Nat.zero_le N))
    have htop : p.top = f.entry := by
      rw [hstart] at hin
      exact Func.eq_entry_of_dominates (hin.elim L.top_dominates_front L.top_dominates_back)
    refine ⟨0, Nat.le_refl 0, .here ?_ hin⟩
    rw [hstart, htop]
    exact ⟨rfl, rfl⟩
  | succ k ih =>
    have hlive := Func.live_moment W.valid.once (C.moment k (by omega))
    have hlater : p.InPair l₁ l₂ (M k).block → ¬(M (k + 1)).StartsAt f p.top →
        ∃ s ≤ k + 1, InPairSince f l₁ l₂ p M s (k + 1) := by
      intro hbefore hnot
      obtain ⟨s, hs, hsince⟩ := ih (by omega) hbefore
      exact ⟨s, by omega, hsince.succ hnot hin⟩
    rcases C.step_cases W.valid.once (show k < N by omega) with ⟨i, act, h⟩ | h
    · refine hlater (h.block ▸ hin) fun hstart => ?_
      have hdone := hstart.2
      rw [← hstart.1, h.done, h.block] at hdone
      omega
    · by_cases htop : (M (k + 1)).block = p.top
      · exact ⟨k + 1, Nat.le_refl _, .here (htop ▸ h.starts) hin⟩
      · refine hlater ?_ fun hstart => htop hstart.1
        rcases hin with hin | hin
        · exact Or.inl (L.into_front hin htop hlive.1 h.edge)
        · by_cases hturn : (M (k + 1)).block = p.turn
          · exact Or.inl (L.into_turn hlive.1 (hturn ▸ h.edge))
          · exact Or.inr (L.into_back hin hturn hlive.1 h.edge)

/-- Control in the back is on a crossing. -/
theorem exists_crossing_of_back (hk : k ≤ N) (hin : p.Back l₂ (M k).block) :
    ∃ s t e, Crossing f l₁ l₂ p M N s t e ∧ t ≤ k ∧ k < e := by
  have L := W.layout
  obtain ⟨s, hs, hstart, hlast, hpair⟩ := W.exists_start hk (Or.inr hin)
  obtain ⟨t, e, P⟩ := exists_crossing L W.valid W.completes (by omega) hstart
  have hlt := P.start_lt
  have hlt' := P.turn_lt
  have htk : t ≤ k := by
    by_contra hgt
    exact L.not_back_of_front (P.front k hs (by omega)) hin
  refine ⟨s, t, e, P, htk, ?_⟩
  by_contra hge
  -- behind the pair control is in the pair only if it is at the top again
  obtain ⟨m, hm, htm, hmove⟩ := P.last_back W.valid W.completes
  have hfront := (hpair e (by omega) (by omega)).resolve_right fun h => L.after_not_back (P.ends.1 ▸ h)
  refine hlast e (by omega) (by omega) ?_
  by_cases htop : (M e).block = p.top
  · exact htop ▸ P.ends.1 ▸ P.ends
  · exact absurd (P.back m htm (by omega)) (L.not_back_of_front
      (L.into_front hfront htop (W.completes.live W.valid.once (by have := P.le; omega)) hmove.edge))

/-- Until the end of its code, control stays in a block. -/
theorem block_of_code {b : BlockId} {n : Nat} (hk : k ≤ N) (hb : (M k).StartsAt f b) (hn : k ≤ n)
    (hle : n ≤ k + (f.bodyAt b).length) : (M n).block = b := by
  obtain ⟨m, rfl⟩ := Nat.exists_eq_add_of_le hn
  exact (W.completes.code hk hb (by omega)).2.1

/-- A crossing goes through both preheaders or passes both loops by. -/
theorem through_or_past (P : Crossing f l₁ l₂ p M N s t e) :
    (∃ i j, s ≤ i ∧ i < t ∧ t ≤ j ∧ j < e ∧ (M i).EndsAt f p.first.preheader ∧ (M j).EndsAt f p.second.preheader ∧
      ∀ k, t ≤ k → k ≤ j → (M k).block = p.turn ∨ (M k).block = p.second.preheader) ∨
      ∀ k, t ≤ k → k < e → (M k).block = p.turn := by
  have L := W.layout
  have C := W.completes
  have hle := P.le
  have hslt := P.start_lt
  have hlt := P.turn_lt
  have hi := P.starts
  have hj := P.turns
  have htop := (C.code_ends (by omega) hi).2.1
  have hturn := (C.code_ends (by omega) hj).2.1
  have hi' := P.code_front L C (Nat.le_refl _) hslt hi (Nat.le_refl _)
  have hj' := P.code_back L C (Nat.le_refl _) hlt hj (Nat.le_refl _)
  cases hg : p.guards with
  | none =>
    refine Or.inl ⟨_, _, Nat.le_add_right _ _, hi', Nat.le_add_right _ _, hj', Plan.top_unguarded hg ▸ htop,
      Plan.turn_unguarded hg ▸ hturn, fun k hk hk' => Or.inl ?_⟩
    exact W.block_of_code (by omega) hj hk hk'
  | some g =>
    have hmove₁ := C.moves_of_ends W.valid.once (by omega) htop
    have hmove₂ := C.moves_of_ends W.valid.once (by omega) hturn
    rcases W.guards_agree P hg (Plan.top_guarded hg ▸ htop) (Plan.turn_guarded hg ▸ hturn) (Nat.le_add_right _ _) hi'
      (Nat.le_add_right _ _) hj' hmove₁ hmove₂ with ⟨hb₁, hb₂⟩ | ⟨-, hb₂⟩
    · have hlt₁ : s + (f.bodyAt p.top).length + 1 < t := by
        refine Nat.lt_of_le_of_ne hi' fun h => ?_
        exact L.not_back_of_front (Or.inr (Or.inl (h ▸ hb₁))) (P.turns.1 ▸ Layout.turn_back)
      have hlt₂ : t + (f.bodyAt p.turn).length + 1 < e := by
        refine Nat.lt_of_le_of_ne hj' fun h => ?_
        exact L.after_not_back (P.ends.1 ▸ Or.inr (Or.inl (h ▸ hb₂)))
      have hstart₁ := hb₁ ▸ hmove₁.starts
      have hstart₂ := hb₂ ▸ hmove₂.starts
      refine Or.inl ⟨_, _, by omega, P.code_front L C (by omega) hlt₁ hstart₁ (Nat.le_refl _), by omega,
        P.code_back L C (by omega) hlt₂ hstart₂ (Nat.le_refl _), (C.code_ends (by omega) hstart₁).2.1,
        (C.code_ends (by omega) hstart₂).2.1, fun k hk hk' => ?_⟩
      rcases Nat.lt_or_ge (t + (f.bodyAt p.turn).length) k with hgt | hle'
      · exact Or.inr (W.block_of_code (by omega) hstart₂ (by omega) hk')
      · exact Or.inl (W.block_of_code (by omega) hj hk hle')
    · refine Or.inr fun k hk hke => W.block_of_code (by omega) hj hk ?_
      by_contra hgt
      have hback := P.back (t + (f.bodyAt p.turn).length + 1) (by omega) (by omega)
      rw [hb₂, ← Plan.after_guarded hg] at hback
      exact L.after_not_back hback

/-- **Control in the second loop is on a visit of both loops.** -/
theorem exists_visit_of_mem (hk : k ≤ N) (hin : (M k).block ∈ l₂.blocks) :
    ∃ s t e a₁ x₁ a₂ x₂, Visit f l₁ l₂ p M N s t e a₁ x₁ a₂ x₂ ∧ a₂ ≤ k ∧ k < x₂ := by
  have L := W.layout
  have C := W.completes
  obtain ⟨s, t, e, P, htk, hke⟩ := W.exists_crossing_of_back hk (Or.inl hin)
  have hturn : p.turn ∉ l₂.blocks := by
    cases hg : p.guards with
    | none => exact Plan.turn_unguarded hg ▸ L.preheader₂_out.2
    | some g => exact Plan.turn_guarded hg ▸ L.guard₂_out₂ hg
  have hmovable : (Snapshot.of f).movable p.turn = .ok () := by
    cases hg : p.guards with
    | none => exact Plan.turn_unguarded hg ▸ L.plan.code.movePreheader
    | some g => exact Plan.turn_guarded hg ▸ (L.plan.code.moveGuard g hg).1
  rcases W.through_or_past P with ⟨i, j, hsi, hit, htj, hje, hi, hj, hblocks⟩ | hpast
  · have hle := P.le
    obtain ⟨x₁, x₂, V⟩ := P.exists_visit L W.valid C hsi hit htj hje hi hj fun n htn hnj => by
      rcases hblocks n htn hnj with hb | hb
      · exact access?_of_movable W.valid C hmovable (by omega) hb
      · exact access?_of_movable W.valid C L.plan.code.movePreheader (by omega) hb
    refine ⟨s, t, e, i + 1, x₁, j + 1, x₂, V, ?_, ?_⟩
    · by_contra hlt
      rcases hblocks k htk (by omega) with hb | hb
      · exact hturn (hb ▸ hin)
      · exact L.preheader₂_out.2 (hb ▸ hin)
    · by_contra hge
      exact L.exit₂_out.2 (V.exit₂ k (by omega) hke ▸ hin)
  · exact absurd (hpast k htk hke ▸ hin) hturn

end PairRun

namespace Visit

variable {f : Func} {l₁ l₂ : Loop} {p : Plan} {args : List Word} {limit N i j n s t e a₁ x₁ a₂ x₂ : Nat} {M : Nat → Moment}
variable {r : RunResult} {d : BlockId}
variable (L : Layout f l₁ l₂ p) (hv : f.Valid) (C : f.Completes args limit M N r) (V : Visit f l₁ l₂ p M N s t e a₁ x₁ a₂ x₂)

include L C V

/-- What control does in the first loop before it comes to the second without entering the first again is on the same visit. -/
theorem mem_stay₁ (hin : (M i).block ∈ l₁.blocks) (hij : i ≤ j) (hnot : f.NotReentered args limit l₁ i j) (ha₂ : a₂ ≤ j)
    (hx₂ : j < x₂) : a₁ ≤ i ∧ i < x₁ := by
  have := V.le₁
  have := V.lt₂
  have := V.le₂
  have := V.le
  have := V.stay₁.lt
  constructor
  · by_contra hlt
    obtain ⟨m, hm, hout⟩ := V.stay₁.before
    refine hout (hnot m (M m) (M (m + 1)) (by omega) (by omega) (C.moment m (by omega)) (C.moment (m + 1) (by omega)) ?_)
    rw [← hm, V.stay₁.enters.1, L.shape₁.header]
  · by_contra hge
    rcases Nat.lt_or_ge i t with hit | hti
    · exact L.exit₁_out.1 ((V.exit₁ i (by omega) hit).1 ▸ hin)
    · exact L.not_back_of_front (Or.inl hin) (V.back i hti (by omega))

section Kept

variable (ha₁ : a₁ ≤ i) (hx₁ : i < x₁)

include ha₁ hx₁

omit C in
/-- From the first loop on, a visit does not come to a block that dominates the loop. -/
theorem not_visited (hdom : f.Dominates d (M i).block) (hd : d ∉ l₁.blocks) (hin : i < n) (hne : n < e) : (M n).block ≠ d := by
  have hmem := V.stay₁.inside i ha₁ hx₁
  rintro rfl
  rcases Nat.lt_or_ge n x₁ with hnx | hxn
  · exact hd (V.stay₁.inside n (by omega) hnx)
  · rcases Nat.lt_or_ge n t with hnt | htn
    · obtain ⟨hexit, g, hg⟩ := V.exit₁ n hxn hnt
      refine L.not_dominates_of_outside hmem hdom hd ?_
      rw [hexit]
      exact (L.loop₁.dominates_of_mem L.latch₁_mem).trans (L.latch₁_dominates_exit₁ hg)
    · exact L.not_dominates_front (V.back n htn hne) (Or.inl hmem) hdom

include hv

/-- **What both loops know reads the same in both**, if the first computes it alike in every round, if at all. -/
theorem coded_eq (ha₂ : a₂ ≤ j) (hx₂ : j < x₂) {x : Atom} (hi : f.Settled (M i).block (M i).done x)
    (hj : f.Settled (M j).block (M j).done x) (hx : f.Unvaried l₁ x) : (M j).coded.at x = (M i).coded.at x := by
  have := V.le₁
  have := V.lt₂
  have := V.le₂
  have := V.le
  have := V.stay₁.lt
  cases x with
  | round h =>
    have hrounds : (M j).rounds h = (M i).rounds h := C.rounds_frame hv.once (by omega) (by omega) fun n hin hnj =>
      V.not_visited L ha₁ hx₁ hi hx hin (by omega)
    simp only [Reading.at, Moment.coded, hrounds]
  | value v =>
    have hkept : (M j).machine.env.get? v = (M i).machine.env.get? v := by
      have hav : f.AvailableBefore (M i).block (M i).done v := hi
      rcases hav.out with hparam | ⟨d, hdom, hvd⟩
      · exact C.env_frame hv.once (by omega) (by omega) fun n _ _ hmem => Func.not_mem_params hv.once hmem hparam
      · by_cases hd : d ∈ l₁.blocks
        · have hback : p.Back l₂ (M j).block := Or.inl (V.stay₂.inside j ha₂ hx₂)
          have hfront := L.not_back_of_front (Or.inl hd)
          have havj : f.AvailableBefore (M j).block (M j).done v := hj
          obtain ⟨d', hdomj, hvd'⟩ := havj.out.resolve_left (Func.not_mem_params hv.once hvd)
          obtain rfl := Func.destsAt_unique hv.once hvd' hvd
          rcases L.dominates_back_cases hback hdomj hfront with htop | ⟨-, -, hlatch⟩
          · have heq := htop.antisymm (L.top_dominates_front (Or.inl hd)) (L.loop₁.live_of_mem hd)
            exact absurd (heq ▸ hd) L.top_out₁
          · obtain ⟨depth, hrep⟩ := hx
            rw [← V.repeats L hv C hrep ha₁ hx₁ hav hd hvd hlatch]
            refine C.env_frame hv.once (by omega) (by omega) fun n htn hnj hmem => hfront ?_
            exact Func.destsAt_unique hv.once hmem hvd ▸ V.back n htn.le (by omega)
        · refine C.env_frame hv.once (by omega) (by omega) fun n hin hnj hmem => ?_
          exact V.not_visited L ha₁ hx₁ hdom hd hin (by omega) (Func.destsAt_unique hv.once hmem hvd)
    simp only [Reading.at, Moment.coded, hkept]

end Kept

end Visit

end SsaFusion
