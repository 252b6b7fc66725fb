import SsaFusion.Proofs.Fusion.Crossings

/-!
# What the fused run holds in the middle of a crossing

The fused run goes through front and back of a pair side by side: it has got to one moment of the front and to one moment of
the back. What it holds then is a blend of what the run holds at these two moments (`blend`). The values of the back are as they
are at the moment of the back, all other values as they are at the moment of the front. A cell that the back has written, and an
array that the back has made, is as it is at the moment of the back. A step of the front and a step of the back are both steps
of the blend (`blend_front`, `blend_back`), and what each of them reads, it reads in the blend (`front_shows`, `back_shows`,
`front_cell`, `back_cell`). Before and behind the crossing, the blend is what the run holds (`blend_start`, `blend_end`).
-/

namespace SsaFusion

open Plan (phiDests bodyDests)

/-! ## Two stores in one -/

namespace Store

variable {own : ValueId → Prop} {taken taken' : Nat → Nat → Prop} {base fresh : Nat} {A B : Store} {act : Action}

open Classical in
/-- The store of two parties: the second has its own values, the cells that it has overwritten and the arrays from some number
on. -/
noncomputable def mix (own : ValueId → Prop) (taken : Nat → Nat → Prop) (base : Nat) (A B : Store) : Store where
  env v := if own v then B.env v else A.env v
  cell a n := if base ≤ a ∨ taken a n then B.cell a n else A.cell a n
  made a := A.made a ∨ base ≤ a ∧ B.made a

theorem env_mix_of_own {v : ValueId} (h : own v) : (mix own taken base A B).env v = B.env v := if_pos h

theorem env_mix_of_not_own {v : ValueId} (h : ¬own v) : (mix own taken base A B).env v = A.env v := if_neg h

theorem cell_mix_of_over {a n : Nat} (h : base ≤ a ∨ taken a n) : (mix own taken base A B).cell a n = B.cell a n := if_pos h

theorem cell_mix_of_not_over {a n : Nat} (h : ¬(base ≤ a ∨ taken a n)) : (mix own taken base A B).cell a n = A.cell a n :=
  if_neg h

theorem mix_perform_left (hdest : ∀ d, act.dest? = some d → ¬own d)
    (hwrite : ∀ a n x, act = .write a n x → ¬(base ≤ a ∨ taken a n))
    (hmake : ∀ d n, act = .make d n → ∀ k, ¬(base ≤ fresh ∨ taken fresh k)) :
    mix own taken base (A.perform fresh act) B = (mix own taken base A B).perform fresh act := by
  have henv : ∀ d, act.dest? = some d → ∀ x v, (mix own taken base { A with env := Function.update A.env d x } B).env v =
      Function.update (mix own taken base A B).env d x v := by
    intro d hd x v
    by_cases hv : v = d
    · rw [hv, env_mix_of_not_own (hdest d hd), Function.update_self]
      exact Function.update_self ..
    · simp only [mix, Function.update_of_ne hv]
  cases act with
  | bind d x => exact Store.ext (funext (henv d rfl _)) rfl rfl
  | make d size =>
    refine Store.ext (funext (henv d rfl _)) (funext fun a => funext fun n => ?_) (funext fun a => propext or_assoc)
    by_cases ha : a = fresh
    · subst ha
      rw [cell_mix_of_not_over (hmake d size rfl n)]
      simp only [perform, Function.update_self]
    · simp only [mix, perform, Function.update_of_ne ha]
  | write a n x =>
    refine Store.ext rfl (funext fun b => funext fun k => ?_) rfl
    by_cases hb : b = a
    · subst hb
      by_cases hk : k = n
      · subst hk
        rw [cell_mix_of_not_over (hwrite b k x rfl)]
        simp only [perform, Function.update_self]
      · simp only [mix, perform, Function.update_self, Function.update_of_ne hk]
    · simp only [mix, perform, Function.update_of_ne hb]
  | skip => rfl

theorem mix_perform_right (hdest : ∀ d, act.dest? = some d → own d) (hfresh : base ≤ fresh)
    (hover : ∀ a n, taken' a n ↔ taken a n ∨ ∃ x, act = .write a n x) :
    mix own taken' base A (B.perform fresh act) = (mix own taken base A B).perform fresh act := by
  have henv : ∀ d, act.dest? = some d → ∀ x v, (mix own taken base A { B with env := Function.update B.env d x }).env v =
      Function.update (mix own taken base A B).env d x v := by
    intro d hd x v
    by_cases hv : v = d
    · rw [hv, env_mix_of_own (hdest d hd), Function.update_self]
      exact Function.update_self ..
    · simp only [mix, Function.update_of_ne hv]
  have hsame : (∀ a n x, act ≠ .write a n x) → taken' = taken := by
    intro hno
    funext a n
    refine propext ((hover a n).trans (or_iff_left ?_))
    rintro ⟨x, hx⟩
    exact hno a n x hx
  cases act with
  | bind d x =>
    rw [hsame (by simp)]
    exact Store.ext (funext (henv d rfl _)) rfl rfl
  | make d size =>
    rw [hsame (by simp)]
    refine Store.ext (funext (henv d rfl _)) (funext fun a => funext fun n => ?_) (funext fun a => propext ?_)
    · by_cases ha : a = fresh
      · subst ha
        rw [cell_mix_of_over (Or.inl hfresh)]
        simp only [perform, Function.update_self]
      · simp only [mix, perform, Function.update_of_ne ha]
    · simp only [mix, perform]
      constructor
      · rintro (h | ⟨h, rfl | h'⟩)
        · exact Or.inr (Or.inl h)
        · exact Or.inl rfl
        · exact Or.inr (Or.inr ⟨h, h'⟩)
      · rintro (rfl | h | ⟨h, h'⟩)
        · exact Or.inr ⟨hfresh, Or.inl rfl⟩
        · exact Or.inl h
        · exact Or.inr ⟨h, Or.inr h'⟩
  | write a n x =>
    refine Store.ext rfl (funext fun b => funext fun k => ?_) rfl
    by_cases hbk : b = a ∧ k = n
    · obtain ⟨rfl, rfl⟩ := hbk
      rw [cell_mix_of_over (Or.inr ((hover b k).mpr (Or.inr ⟨x, rfl⟩)))]
      simp only [perform, Function.update_self]
    · have hother : taken' b k = taken b k := by
        refine propext ((hover b k).trans (or_iff_left ?_))
        rintro ⟨y, hy⟩
        cases hy
        exact hbk ⟨rfl, rfl⟩
      by_cases hb : b = a
      · subst hb
        have hk : k ≠ n := fun hk => hbk ⟨rfl, hk⟩
        simp only [mix, perform, Function.update_self, Function.update_of_ne hk]
        rw [hother]
      · simp only [mix, perform, Function.update_of_ne hb]
        rw [hother]
  | skip =>
    rw [hsame (by simp)]
    rfl

end Store

/-! ## The blend of two moments -/

/-- The back has written a cell between the turn and a moment. -/
def Overwritten (f : Func) (M : Nat → Moment) (t j a n : Nat) : Prop :=
  ∃ m, t ≤ m ∧ m < j ∧ (M m).access? f = some ((a, n), true)

/-- What the fused run holds when it has got to one moment in the front and to one moment in the back. -/
noncomputable def blend (f : Func) (l₂ : Loop) (p : Plan) (M : Nat → Moment) (t i j : Nat) : Store :=
  .mix (p.Own f l₂) (Overwritten f M t j) (M t).machine.memory.size (M i).machine.store (M j).machine.store

section Blend

variable {f : Func} {l₂ : Loop} {p : Plan} {M : Nat → Moment} {t i j a n : Nat} {v : ValueId}

/-- One more step of the back overwrites what was overwritten, and the cell that it writes. -/
theorem overwritten_succ (htj : t ≤ j) :
    Overwritten f M t (j + 1) a n ↔ Overwritten f M t j a n ∨ (M j).access? f = some ((a, n), true) := by
  constructor
  · rintro ⟨m, htm, hmj, hm⟩
    rcases Nat.lt_succ_iff_lt_or_eq.mp hmj with hlt | rfl
    · exact Or.inl ⟨m, htm, hlt, hm⟩
    · exact Or.inr hm
  · rintro (⟨m, htm, hmj, hm⟩ | hm)
    · exact ⟨m, htm, by omega, hm⟩
    · exact ⟨j, htj, by omega, hm⟩

theorem env_blend_of_own (h : p.Own f l₂ v) : (blend f l₂ p M t i j).env v = (M j).machine.env.get? v :=
  Store.env_mix_of_own h

theorem env_blend_of_not_own (h : ¬p.Own f l₂ v) : (blend f l₂ p M t i j).env v = (M i).machine.env.get? v :=
  Store.env_mix_of_not_own h

end Blend

namespace Crossing

variable {f : Func} {l₁ l₂ : Loop} {p : Plan} {args : List Word} {limit N i i' j j' k n s t e : Nat} {M : Nat → Moment}
variable {r : RunResult} {b d : BlockId} {v : ValueId} {instr : Instr} {act : Action}
variable (L : Layout f l₁ l₂ p) (hv : f.Valid) (C : f.Completes args limit M N r) (P : Crossing f l₁ l₂ p M N s t e)

include L hv C P

/-! ### Steps -/

omit C P in
theorem not_own_of_front (hb : p.Front l₁ b) (hvb : v ∈ f.destsAt b) : ¬p.Own f l₂ v := by
  rintro ⟨⟨c, hc, hvc⟩, -⟩
  exact L.not_back_of_front hb (Func.destsAt_unique hv.once hvc hvb ▸ hc)

omit L C P in
theorem own_of_back (hb : p.Back l₂ b) (hvb : v ∈ bodyDests f b) : p.Own f l₂ v := by
  refine ⟨⟨b, hb, Layout.mem_destsAt.mpr (Or.inr hvb)⟩, ?_⟩
  rintro ⟨g, -, hphi⟩
  exact Layout.not_mem_bodyDests hv hphi hvb

omit L in
theorem size_front (hit : i ≤ t) : (M i).machine.memory.size ≤ (M t).machine.memory.size :=
  C.size_mono hv.once hit (P.turn_lt.le.trans P.le)

omit L in
theorem size_back (htj : t ≤ j) (hje : j ≤ e) : (M t).machine.memory.size ≤ (M j).machine.memory.size :=
  C.size_mono hv.once htj (hje.trans P.le)

omit L in
/-- The number of the next array of the back is free in the blend. -/
theorem next_not_made (hit : i ≤ t) (htj : t ≤ j) (hje : j ≤ e) :
    ¬(blend f l₂ p M t i j).made (M j).machine.memory.size := by
  have hi := P.size_front hv C hit
  have hj := P.size_back hv C htj hje
  rintro (hm | ⟨-, hm⟩)
  · exact absurd (show _ < (M i).machine.memory.size from hm) (by omega)
  · exact Nat.lt_irrefl _ hm

/-- A step of the front is a step of the blend. -/
theorem blend_front (hsi : s ≤ i) (hit : i < t) (htj : t ≤ j) (hje : j ≤ e) (h : (M i).Executes f (M (i + 1)) instr act)
    (hpast : ∀ c w, (M i).access? f = some (c, w) → ∀ m, t ≤ m → m < j → (M m).access? f ≠ some (c, true))
    (hreach : ∀ a n, Overwritten f M t j a n → a < (M i).machine.memory.size ∨ (M t).machine.memory.size ≤ a) :
    ∃ fresh, ¬(blend f l₂ p M t i j).made fresh ∧
      blend f l₂ p M t (i + 1) j = (blend f l₂ p M t i j).perform fresh act := by
  have hi := P.size_front hv C hit.le
  have hi' := P.size_front hv C (show i + 1 ≤ t from hit)
  have hj := P.size_back hv C htj hje
  have hdest : ∀ d, act.dest? = some d → ¬p.Own f l₂ d := fun d hd =>
    not_own_of_front L hv (P.front i hsi hit) (Func.mem_destsAt_iff_index.mpr
      ⟨_, _, h.instr, Machine.dest?_of_action h.action hd⟩)
  have hwrite : ∀ a n x, act = .write a n x → ¬((M t).machine.memory.size ≤ a ∨ Overwritten f M t j a n) := by
    rintro a n x rfl (hle | ⟨m, htm, hmj, hm⟩)
    · obtain ⟨y, hy⟩ := Option.isSome_iff_exists.mp (Machine.allows_of_action h.action)
      exact absurd (Machine.lt_of_cell? hy) (by omega)
    · refine hpast _ true ?_ m htm hmj hm
      rw [h.access?]
      exact Machine.access?_of_write h.action
  cases act with
  | make d size =>
    have hlt : (M i).machine.memory.size < (M (i + 1)).machine.memory.size :=
      (congrFun (congrArg Store.made h.store) _).mpr (Or.inl rfl)
    refine ⟨(M i).machine.memory.size, ?_, ?_⟩
    · rintro (hm | ⟨hm, -⟩)
      · exact Nat.lt_irrefl _ hm
      · omega
    · rw [blend, h.store]
      refine Store.mix_perform_left hdest hwrite fun _ _ _ k => ?_
      rintro (hle | hover)
      · omega
      · have := hreach _ _ hover
        omega
  | bind | write | skip =>
    refine ⟨(M j).machine.memory.size, P.next_not_made hv C hit.le htj hje, ?_⟩
    rw [blend, h.store]
    exact Store.mix_perform_left hdest hwrite fun _ _ hact => by cases hact

omit L in
/-- A step of the back is a step of the blend. -/
theorem blend_back (hit : i ≤ t) (htj : t ≤ j) (hje : j < e) (h : (M j).Executes f (M (j + 1)) instr act) :
    ¬(blend f l₂ p M t i j).made (M j).machine.memory.size ∧
      blend f l₂ p M t i (j + 1) = (blend f l₂ p M t i j).perform (M j).machine.memory.size act := by
  refine ⟨P.next_not_made hv C hit htj hje.le, ?_⟩
  rw [blend, h.store]
  refine Store.mix_perform_right (fun d hd => ?_) (P.size_back hv C htj hje.le) fun a n => ?_
  · refine own_of_back hv (P.back j htj hje) (List.mem_filterMap.mpr ⟨instr, ?_, Machine.dest?_of_action h.action hd⟩)
    exact C.mem_bodyAt hv.once (by have := P.le; omega) h.instr
  · rw [overwritten_succ htj, h.access?]
    refine or_congr_right ⟨Machine.write_of_access? h.action, ?_⟩
    rintro ⟨x, rfl⟩
    exact Machine.access?_of_write h.action

/-! ### Reads -/

omit C in
/-- What the front reads, it reads in the blend. -/
theorem front_shows (hsi : s ≤ i) (hit : i < t) (hav : f.AvailableOut (M i).block v) :
    (blend f l₂ p M t i j).env (Snapshot.standIn p v) = (M i).machine.env.get? v := by
  obtain ⟨hnot, hu⟩ := L.not_own_of_available hv (P.front i hsi hit) hav
  rw [Layout.standIn_of_not_unifies hu]
  exact env_blend_of_not_own fun hown => hnot hown.1

/-- What the back reads, it reads in the blend, if its moment fits to the moment of the front. -/
theorem back_shows (hsi : s ≤ i) (hit : i < t) (htj : t ≤ j) (hje : j < e)
    (htop : (M i).EndsAt f p.top ∨ (M i).block ≠ p.top) (hav : f.AvailableOut (M j).block v) (hphi : ¬p.GuardPhi f v)
    (hunify : p.unifies v = true → (M j).machine.env.get? p.second.induction = (M i).machine.env.get? p.first.induction)
    (hfirst : p.guards = none → ∀ d ∈ l₁.blocks, v ∈ f.destsAt d → f.Dominates d p.first.latch →
      (M t).machine.env.get? v = (M i).machine.env.get? v) :
    (blend f l₂ p M t i j).env (Snapshot.standIn p v) = (M j).machine.env.get? v := by
  cases hu : p.unifies v with
  | true =>
    have hmem : p.first.induction ∈ f.destsAt p.first.header := Layout.mem_destsAt.mpr (Or.inl L.induction₁_mem)
    rw [Snapshot.standIn, if_pos hu, (p.eq_of_unifies hu).2, hunify hu]
    exact env_blend_of_not_own (not_own_of_front L hv (Or.inl L.header₁_mem) hmem)
  | false =>
    rw [Layout.standIn_of_not_unifies hu]
    by_cases hown : p.Own f l₂ v
    · exact env_blend_of_own hown
    · refine (env_blend_of_not_own hown).trans (Eq.trans ?_ (P.back_env L hv C hown htj hje).symm)
      rcases P.settled L hv C hav (P.back j htj hje) hown hphi htop hsi hit.le with h | ⟨hg, d, hd, hvd, hdom⟩
      · exact h.symm
      · exact (hfirst hg d hd hvd hdom).symm

omit L in
/-- What the front accesses, it finds in the blend. -/
theorem front_cell {a n : Nat} (hit : i ≤ t) (hpast : ∀ m, t ≤ m → m < j → (M m).access? f ≠ some ((a, n), true))
    (hlt : a < (M i).machine.memory.size) : (blend f l₂ p M t i j).cell a n = (M i).machine.cell? a n := by
  refine Store.cell_mix_of_not_over ?_
  rintro (hle | ⟨m, htm, hmj, hm⟩)
  · have := P.size_front hv C hit
    omega
  · exact hpast m htm hmj hm

omit L in
/-- What the back accesses, it finds in the blend. -/
theorem back_cell {a n : Nat} (hit : i ≤ t) (htj : t ≤ j) (hje : j ≤ e)
    (hahead : ∀ m, i ≤ m → m < t → (M m).access? f ≠ some ((a, n), true)) (hmade : (blend f l₂ p M t i j).made a) :
    (blend f l₂ p M t i j).cell a n = (M j).machine.cell? a n := by
  by_cases hover : (M t).machine.memory.size ≤ a ∨ Overwritten f M t j a n
  · exact Store.cell_mix_of_over hover
  · have hlt : a < (M t).machine.memory.size := by
      by_contra hge
      exact hover (Or.inl (by omega))
    have hlt' : a < (M i).machine.memory.size := hmade.resolve_right fun h => absurd h.1 (by omega)
    have hle := P.le
    rw [C.cell_frame hv.once htj (by omega) hlt fun m htm hmj hm => hover (Or.inr ⟨m, htm, hmj, hm⟩),
      C.cell_frame hv.once hit (by omega) hlt' hahead]
    exact Store.cell_mix_of_not_over hover

/-! ### Before and behind the crossing -/

/-- At the top, the blend is what the run holds. -/
theorem blend_start : (∀ v, (blend f l₂ p M t s t).env v = (M s).machine.store.env v) ∧
    (∀ a, (M s).machine.store.made a → ∀ n, (blend f l₂ p M t s t).cell a n = (M s).machine.store.cell a n) ∧
    ∀ a, (blend f l₂ p M t s t).made a ↔ (M s).machine.store.made a := by
  refine ⟨fun v => ?_, fun a ha n => ?_, fun a => ?_⟩
  · by_cases hown : p.Own f l₂ v
    · exact (env_blend_of_own hown).trans (P.front_env L hv C hown P.start_lt.le (Nat.le_refl _))
    · exact env_blend_of_not_own hown
  · exact P.front_cell hv C P.start_lt.le (fun m htm hmt => by omega) ha
  · refine or_iff_left ?_
    rintro ⟨hle, hlt⟩
    exact Nat.not_lt.mpr hle hlt

/-- On arrival behind the pair, the run holds what the blend holds, apart from what the phis there receive. -/
theorem blend_end (hi : (M i).Moves f (M t)) (hit : i + 1 = t) (hj : (M j).Moves f (M e)) (hje : j + 1 = e) (htj : t ≤ j) :
    (∀ v, v ∉ phiDests f p.after → ¬p.GuardPhi f v → (M e).machine.store.env v = (blend f l₂ p M t i j).env v) ∧
    (∀ a, (blend f l₂ p M t i j).made a → ∀ n, (M e).machine.store.cell a n = (blend f l₂ p M t i j).cell a n) ∧
    ∀ a, (M e).machine.store.made a ↔ (blend f l₂ p M t i j).made a := by
  have hsize : (M i).machine.memory.size = (M t).machine.memory.size := by rw [hi.memory]
  refine ⟨fun v hphi hguard => ?_, fun a ha n => ?_, fun a => ?_⟩
  · have hafter : (M e).machine.env.get? v = (M j).machine.env.get? v :=
      hj.frame v (by rw [P.ends.1]; exact hphi)
    refine hafter.trans ?_
    by_cases hown : p.Own f l₂ v
    · exact (env_blend_of_own hown).symm
    · have hturn : (M t).machine.env.get? v = (M i).machine.env.get? v := by
        refine hi.frame v fun hmem => hguard (guardPhi_of_turn L ?_)
        rwa [P.turns.1] at hmem
      exact ((P.back_env L hv C hown htj (by omega)).trans hturn).trans (env_blend_of_not_own hown).symm
  · have hcell : (M e).machine.cell? a n = (M j).machine.cell? a n := by rw [Machine.cell?, hj.memory]; rfl
    refine hcell.trans (P.back_cell hv C (by omega) htj (by omega) (fun m him hmt hm => ?_) ha).symm
    obtain rfl : m = i := by omega
    rw [Moment.access?, hi.last] at hm
    cases hm
  · have hj' := P.size_back hv C htj (by omega)
    simp only [blend, Store.mix, Machine.store, hj.memory, hsize]
    omega

/-! ### The code of a block -/

omit L hv C P in
/-- The fused run keeps up with two moments: it holds their blend, has not used more steps than the run up to these moments,
and what the back has written are arrays that there are. -/
structure Blended (good : ValueId → Prop) (f : Func) (l₂ : Loop) (p : Plan) (M : Nat → Moment) (t i j : Nat) (F : Machine) :
    Prop where
  named : ∃ ρ, Store.Named good ρ (blend f l₂ p M t i j) F
  steps : F.steps + (M t).machine.steps ≤ (M i).machine.steps + (M j).machine.steps
  reach : ∀ a n, Overwritten f M t j a n → a < (M i).machine.memory.size ∨ (M t).machine.memory.size ≤ a

section Code

variable {good : ValueId → Prop} {keep : Instr → Bool} {F : Machine}
variable (hkept : ∀ i ∈ f.bodyAt b, keep i = true → ∀ v ∈ i.reads, good (Snapshot.standIn p v))
variable (hdrop : ∀ i ∈ f.bodyAt b, keep i = false → i.hasEffect = false ∧ ∀ d, i.dest? = some d → ¬good d)
variable (hsi : s ≤ i) (hit : i < t) (htj : t ≤ j)

include hkept hdrop hsi hit htj

/-- The fused run executes a block of the front. -/
theorem run_front (hje : j ≤ e) (hb : (M i).StartsAt f b)
    (hpast : ∀ n < (f.bodyAt b).length, ∀ c w, (M (i + n)).access? f = some (c, w) → ∀ m, t ≤ m → m < j →
      (M m).access? f ≠ some (c, true))
    (hF : Blended good f l₂ p M t i j F) :
    ∃ F', F.runInstrs limit (((f.bodyAt b).filter keep).map
        fun i => { i with op := i.op.mapOperands (Operand.through (Snapshot.standIn p)) }) = .ok F' ∧
      Blended good f l₂ p M t (i + (f.bodyAt b).length) j F' := by
  have hle := P.le
  have hlt := P.turn_lt
  obtain ⟨ρ, hnamed⟩ := hF.named
  have hend := P.code_front L C hsi hit hb (Nat.le_refl _)
  have hsteps := C.code_steps (show i ≤ N by omega) hb (Nat.le_refl _)
  have hfront := C.steps_mono hv.once hend.le (by omega)
  have hback := C.steps_le (show j ≤ N by omega)
  have hbudget := hF.steps
  have hsize : ∀ n instr, (f.bodyAt b)[n]? = some instr →
      (M (i + n)).machine.memory.size ≤ (M (i + (n + 1))).machine.memory.size := fun n instr hi =>
    C.size_step hv.once (C.code_executes (show i ≤ N by omega) hb hi).1
  have hstep : ∀ n instr, (f.bodyAt b)[n]? = some instr →
      (∀ a k, Overwritten f M t j a k → a < (M (i + n)).machine.memory.size ∨ (M t).machine.memory.size ≤ a) →
      ∃ act fresh, (M (i + n)).machine.action instr.op = .ok act ∧
        blend f l₂ p M t (i + (n + 1)) j = (blend f l₂ p M t (i + n) j).perform fresh act ∧
        ¬(blend f l₂ p M t (i + n) j).made fresh ∧
        (keep instr = true → (blend f l₂ p M t (i + n) j).Sees (Snapshot.standIn p) (M (i + n)).machine instr.op) := by
    intro n instr hi hreach
    obtain ⟨hlen, -⟩ := List.getElem?_eq_some_iff.mp hi
    have hin := P.code_front L C hsi hit hb hlen.le
    obtain ⟨-, act, hexec⟩ := C.code_executes (show i ≤ N by omega) hb hi
    obtain ⟨fresh, hfresh, hblend⟩ := P.blend_front L hv C (show s ≤ i + n by omega) hin htj hje hexec (hpast n hlen) hreach
    refine ⟨act, fresh, hexec.action, hblend, hfresh, fun _ => ⟨fun o ho => Store.shows_of_env fun v hov x hx => ?_,
      fun a k w hacc _ => ?_⟩⟩
    · have hphi := hv.phisFirst _ _ (C.mem_bodyAt hv.once (by omega) hexec.instr)
      have hav := Func.readable_operand hv hexec.instr hphi (C.live hv.once (by omega)) ho v (by rw [hov]; rfl)
      exact (P.front_shows L hv (by omega) hin hav.out).trans hx
    · obtain ⟨x, hx⟩ := Machine.cell?_of_access? hacc
      exact P.front_cell hv C hin.le (hpast n hlen _ _ (hexec.access?.trans hacc)) (Machine.lt_of_cell? hx)
  obtain ⟨F', ρ', hrun, hnamed', hsteps', hreach'⟩ := Store.Named.runInstrs
    (m := fun n => (M (i + n)).machine) (s := fun n => blend f l₂ p M t (i + n) j)
    (P := fun n => ∀ a k, Overwritten f M t j a k → a < (M (i + n)).machine.memory.size ∨ (M t).machine.memory.size ≤ a)
    hstep (fun n instr ρ F hi hreach _ a k hover => (hreach a k hover).imp_left fun h => h.trans_le (hsize n instr hi))
    hkept hdrop (show F.steps + (f.bodyAt b).length ≤ limit by omega) hF.reach hnamed
  exact ⟨F', hrun, ⟨ρ', hnamed'⟩, by omega, hreach'⟩

omit hsi in
/-- The fused run executes a block of the back. -/
theorem run_back (hje : j < e) (hb : (M j).StartsAt f b)
    (hshow : ∀ n instr, (f.bodyAt b)[n]? = some instr → keep instr = true → ∀ v ∈ instr.reads,
      (blend f l₂ p M t i (j + n)).env (Snapshot.standIn p v) = (M (j + n)).machine.env.get? v)
    (hahead : ∀ n < (f.bodyAt b).length, ∀ c w, (M (j + n)).access? f = some (c, w) → ∀ m, i ≤ m → m < t →
      (M m).access? f ≠ some (c, true))
    (hF : Blended good f l₂ p M t i j F) :
    ∃ F', F.runInstrs limit (((f.bodyAt b).filter keep).map
        fun i => { i with op := i.op.mapOperands (Operand.through (Snapshot.standIn p)) }) = .ok F' ∧
      Blended good f l₂ p M t i (j + (f.bodyAt b).length) F' := by
  have hle := P.le
  have hlt := P.turn_lt
  obtain ⟨ρ, hnamed⟩ := hF.named
  have hend := P.code_back L C htj hje hb (Nat.le_refl _)
  have hsteps := C.code_steps (show j ≤ N by omega) hb (Nat.le_refl _)
  have hfront := C.steps_mono hv.once hit.le (by omega)
  have hback := C.steps_le (show j + (f.bodyAt b).length ≤ N by omega)
  have hbudget := hF.steps
  have hsees : ∀ n instr, (f.bodyAt b)[n]? = some instr → keep instr = true →
      (blend f l₂ p M t i (j + n)).Sees (Snapshot.standIn p) (M (j + n)).machine instr.op := by
    intro n instr hi hk
    obtain ⟨hlen, -⟩ := List.getElem?_eq_some_iff.mp hi
    have hin := P.code_back L C htj hje hb hlen.le
    obtain ⟨-, act, hexec⟩ := C.code_executes (show j ≤ N by omega) hb hi
    refine ⟨fun o ho => Store.shows_of_env fun v hov x hx => ?_, fun a k w hacc hmade => ?_⟩
    · exact (hshow n instr hi hk v (instr.mem_reads.mpr (hov ▸ ho))).trans hx
    · exact P.back_cell hv C hit.le (by omega) hin.le (hahead n hlen _ _ (hexec.access?.trans hacc)) hmade
  have hstep : ∀ n instr, (f.bodyAt b)[n]? = some instr →
      (∀ a k, Overwritten f M t (j + n) a k → a < (M i).machine.memory.size ∨ (M t).machine.memory.size ≤ a) →
      ∃ act fresh, (M (j + n)).machine.action instr.op = .ok act ∧
        blend f l₂ p M t i (j + (n + 1)) = (blend f l₂ p M t i (j + n)).perform fresh act ∧
        ¬(blend f l₂ p M t i (j + n)).made fresh ∧
        (keep instr = true → (blend f l₂ p M t i (j + n)).Sees (Snapshot.standIn p) (M (j + n)).machine instr.op) := by
    intro n instr hi _
    obtain ⟨hlen, -⟩ := List.getElem?_eq_some_iff.mp hi
    obtain ⟨-, act, hexec⟩ := C.code_executes (show j ≤ N by omega) hb hi
    obtain ⟨hfresh, hblend⟩ := P.blend_back hv C hit.le (show t ≤ j + n by omega) (P.code_back L C htj hje hb hlen.le) hexec
    exact ⟨act, _, hexec.action, hblend, hfresh, hsees n instr hi⟩
  -- A cell that the back writes belongs to an array that the fused run has, since it writes there as well.
  have hreach : ∀ n instr ρ F, (f.bodyAt b)[n]? = some instr →
      (∀ a k, Overwritten f M t (j + n) a k → a < (M i).machine.memory.size ∨ (M t).machine.memory.size ≤ a) →
      Store.Named good ρ (blend f l₂ p M t i (j + n)) F →
      ∀ a k, Overwritten f M t (j + (n + 1)) a k → a < (M i).machine.memory.size ∨ (M t).machine.memory.size ≤ a := by
    intro n instr ρ F hi hreach hnamed a k hover
    rcases (overwritten_succ (show t ≤ j + n by omega)).mp hover with hold | hacc
    · exact hreach a k hold
    · obtain ⟨-, act, hexec⟩ := C.code_executes (show j ≤ N by omega) hb hi
      rw [hexec.access?] at hacc
      have hmem := List.mem_of_getElem? hi
      have hk : keep instr = true := by
        by_contra hk
        have := (hdrop instr hmem (by simpa using hk)).1
        rw [Instr.hasEffect, Machine.hasEffect_of_access? hacc] at this
        cases this
      exact (hnamed.made_of_access (hsees n instr hi hk).operand (hkept instr hmem hk) hacc).imp_right And.left
  obtain ⟨F', ρ', hrun, hnamed', hsteps', hreach'⟩ := Store.Named.runInstrs
    (m := fun n => (M (j + n)).machine) (s := fun n => blend f l₂ p M t i (j + n))
    (P := fun n => ∀ a k, Overwritten f M t (j + n) a k → a < (M i).machine.memory.size ∨ (M t).machine.memory.size ≤ a)
    hstep hreach hkept hdrop (show F.steps + (f.bodyAt b).length ≤ limit by omega) hF.reach hnamed
  exact ⟨F', hrun, ⟨ρ', hnamed'⟩, by omega, hreach'⟩

end Code

end Crossing

end SsaFusion
