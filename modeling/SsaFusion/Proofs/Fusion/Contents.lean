import SsaFusion.Proofs.Fusion.Edits
import SsaFusion.Proofs.Fusion.Layout
import SsaFusion.Proofs.Validity

/-!
# What is where after fusion

`phiHome` and `bodyHome` say to which block the phis and the code of a block go. The blocks of the fused function are put
together from such parts (`parts_splice`), each part with the reads of the second induction variable and the names of phi
sources replaced.
-/

namespace SsaFusion

/-! ## Homes -/

namespace Plan

variable (p : Plan)

/-- An instruction that reads the first induction variable in place of the second, if that is replaced. -/
def renamed (i : Instr) : Instr := if p.unify then i.renameUses p.second.induction p.first.induction else i

/-- Whether an instruction is kept: only the phi of a replaced induction variable is not. -/
def stays (i : Instr) : Bool := !i.dest?.any p.unifies

/-- The block that stands for a block as the source of a phi. -/
def sourceName (b : BlockId) : BlockId := p.renamings.foldl (fun b r => if b = r.1 then r.2 else b) b

/-- A phi of the join as it is once the phis of the second guard stand in front of it. -/
def resolved (f : Func) (b : BlockId) (i : Instr) : Instr :=
  match p.guards with
  | some g =>
    if b = g.join then
      Func.resolveSources g.second (Func.incomingFrom g.first ((f.phisAt g.second).map p.renamed)) i
    else i
  | none => i

/-- The phis of a block as they are after fusion. -/
def phiPart (f : Func) (b : BlockId) : List Instr :=
  ((f.phisAt b).filter p.stays).map fun i => (p.resolved f b (p.renamed i)).mapSourceBlocks p.sourceName

/-- The code of a block as it is after fusion. -/
def bodyPart (f : Func) (b : BlockId) : List Instr := (f.bodyAt b).map p.renamed

/-- A terminator that reads the first induction variable in place of the second, if that is replaced. -/
def renamedTerm (t : Terminator) : Terminator :=
  if p.unify then t.renameUses p.second.induction p.first.induction else t

/-- The terminator of a block as it is after fusion. -/
def redirected (b : BlockId) (t : Terminator) : Terminator :=
  let t := p.renamedTerm t
  let t := match p.guards with
    | some g => if b = g.first then t.retarget g.second g.join else t
    | none => t
  let t := if b = p.first.latch then t.retarget p.first.exit p.second.exit else t
  match p.second.body with
  | some (first, last) =>
    let t := if b = p.first.last then t.retarget p.first.latch first else t
    if b = last then t.retarget p.second.latch p.first.latch else t
  | none => t

/-- The edges that fusion cuts. -/
def Cut (b c : BlockId) : Prop :=
  b = p.first.latch ∧ c = p.first.exit ∨ (∃ g, p.guards = some g ∧ b = g.first ∧ c = g.second) ∨
    ∃ first last, p.second.body = some (first, last) ∧
      (b = p.first.last ∧ c = p.first.latch ∨ b = last ∧ c = p.second.latch)

/-- The edges that fusion adds. -/
def Added (b c : BlockId) : Prop :=
  b = p.first.latch ∧ c = p.second.exit ∨ (∃ g, p.guards = some g ∧ b = g.first ∧ c = g.join) ∨
    ∃ first last, p.second.body = some (first, last) ∧
      (b = p.first.last ∧ c = first ∨ b = last ∧ c = p.first.latch)

/-- The block to which the phis of a block go. -/
def phiHome (b : BlockId) : BlockId :=
  if b = p.second.header then p.first.header
  else
    match p.guards with
    | some g => if b = g.second then g.join else if b = p.first.exit then p.second.exit else b
    | none => b

/-- The block to which the code of a block goes. -/
def bodyHome (b : BlockId) : BlockId :=
  if b = p.second.header then p.headerHome
  else if b = p.second.latch then p.first.latch
  else if b = p.second.preheader then p.first.preheader
  else
    match p.guards with
    | some g => if b = g.second then g.first else if b = p.first.exit then p.second.exit else b
    | none => b

/-- The blocks whose phis a block has after fusion, in order. -/
def phiSources (b : BlockId) : List BlockId :=
  ((p.guards.elim [] fun g => [g.second, p.first.exit]) ++ [b, p.second.header]).filter (b = p.phiHome ·)

/-- The blocks whose code a block has after fusion, in order. -/
def bodySources (b : BlockId) : List BlockId :=
  ((p.guards.elim [] fun _ => [p.first.exit]) ++ b :: (p.guards.elim [] fun g => [g.second]) ++
    [p.second.preheader, p.second.header] ++ if p.second.latch = p.second.header then [] else [p.second.latch]).filter
      (b = p.bodyHome ·)

theorem phiHome_cases (d : BlockId) :
    p.phiHome d = d ∨ d = p.second.header ∨ ∃ g, p.guards = some g ∧ (d = g.second ∨ d = p.first.exit) := by
  by_cases h : d = p.second.header
  · exact Or.inr (Or.inl h)
  · cases hg : p.guards with
    | none => exact Or.inl (by simp [phiHome, hg, h])
    | some g =>
      by_cases h' : d = g.second ∨ d = p.first.exit
      · exact Or.inr (Or.inr ⟨g, rfl, h'⟩)
      · rw [not_or] at h'
        exact Or.inl (by simp [phiHome, hg, h, h'.1, h'.2])

theorem bodyHome_cases (d : BlockId) :
    p.bodyHome d = d ∨ d = p.second.header ∨ d = p.second.latch ∧ p.second.latch ≠ p.second.header ∨
      d = p.second.preheader ∨ ∃ g, p.guards = some g ∧ (d = g.second ∨ d = p.first.exit) := by
  by_cases h₁ : d = p.second.header
  · exact Or.inr (Or.inl h₁)
  · by_cases h₂ : d = p.second.latch
    · exact Or.inr (Or.inr (Or.inl ⟨h₂, h₂ ▸ h₁⟩))
    · by_cases h₃ : d = p.second.preheader
      · exact Or.inr (Or.inr (Or.inr (Or.inl h₃)))
      · cases hg : p.guards with
        | none => exact Or.inl (by simp [bodyHome, hg, h₁, h₂, h₃])
        | some g =>
          by_cases h₄ : d = g.second ∨ d = p.first.exit
          · exact Or.inr (Or.inr (Or.inr (Or.inr ⟨g, rfl, h₄⟩)))
          · rw [not_or] at h₄
            exact Or.inl (by simp [bodyHome, hg, h₁, h₂, h₃, h₄.1, h₄.2])

/-- The phis of a block are those that go there. -/
theorem mem_phiSources {b d : BlockId} : d ∈ p.phiSources b ↔ b = p.phiHome d := by
  rw [phiSources, List.mem_filter, decide_eq_true_eq, and_iff_right_iff_imp]
  rintro rfl
  rcases p.phiHome_cases d with h | h | ⟨g, hg, h | h⟩
  · simp [h]
  · simp [h]
  · simp [hg, h]
  · simp [hg, h]

/-- The code of a block is what goes there. -/
theorem mem_bodySources {b d : BlockId} : d ∈ p.bodySources b ↔ b = p.bodyHome d := by
  rw [bodySources, List.mem_filter, decide_eq_true_eq, and_iff_right_iff_imp]
  rintro rfl
  rcases p.bodyHome_cases d with h | h | ⟨h, hne⟩ | h | ⟨g, hg, h | h⟩
  · simp [h]
  · simp [h]
  · simp [h, hne]
  · simp [h]
  · simp [hg, h]
  · simp [hg, h]

/-- Parts of the sources of a block, in terms of all blocks that may be sources. -/
theorem flatMap_filter_eq {α β : Type} (q : α → Prop) [DecidablePred q] (F : α → List β) (l : List α) :
    (l.filter (q ·)).flatMap F = l.flatMap fun d => if q d then F d else [] := by
  induction l with
  | nil => rfl
  | cons a l ih => by_cases h : q a <;> simp [h, ih]

/-! ### Edited instructions -/

variable (f : Func) (b : BlockId) (i : Instr)

@[simp] theorem dest?_renamed : (p.renamed i).dest? = i.dest? := by
  unfold renamed
  split
  · exact i.dest?_renameUses _ _
  · rfl

@[simp] theorem isPhi_renamed : (p.renamed i).isPhi = i.isPhi := by
  unfold renamed
  split
  · exact i.isPhi_renameUses _ _
  · rfl

@[simp] theorem hasEffect_renamed : (p.renamed i).hasEffect = i.hasEffect := by
  unfold renamed
  split
  · exact i.hasEffect_renameUses _ _
  · rfl

@[simp] theorem dest?_resolved : (p.resolved f b i).dest? = i.dest? := by
  unfold resolved
  split
  · split
    · exact Func.dest?_resolveSources _ i
    · rfl
  · rfl

@[simp] theorem isPhi_resolved : (p.resolved f b i).isPhi = i.isPhi := by
  unfold resolved
  split
  · split
    · exact Func.isPhi_resolveSources _ i
    · rfl
  · rfl

end Plan

/-! ## The parts of the fused function -/

namespace Layout

variable {f : Func} {l₁ l₂ : Loop} {p : Plan} (L : Layout f l₁ l₂ p) {k : Func} {c : BlockId}

/-- The blocks of both loops and their preheaders, all different but for header and latch of one loop. -/
theorem nodup_loops (L : Layout f l₁ l₂ p) : p.first.header ≠ p.second.header ∧ p.first.header ≠ p.second.latch ∧
    p.first.latch ≠ p.second.header ∧ p.first.latch ≠ p.second.latch ∧ p.first.preheader ≠ p.second.preheader ∧
    (∀ b, b = p.first.header ∨ b = p.first.latch ∨ b = p.second.header ∨ b = p.second.latch →
      b ≠ p.first.preheader ∧ b ≠ p.second.preheader) := by
  have h₁ := L.header₁_mem
  have t₁ := L.latch₁_mem
  have h₂ := L.header₂_mem
  have t₂ := L.latch₂_mem
  refine ⟨fun e => L.disjoint h₁ (e ▸ h₂), fun e => L.disjoint h₁ (e ▸ t₂), fun e => L.disjoint t₁ (e ▸ h₂),
    fun e => L.disjoint t₁ (e ▸ t₂), L.preheader_ne, ?_⟩
  rintro b (rfl | rfl | rfl | rfl)
  · exact ⟨fun e => L.preheader₁_out.1 (e ▸ h₁), fun e => L.preheader₂_out.1 (e ▸ h₁)⟩
  · exact ⟨fun e => L.preheader₁_out.1 (e ▸ t₁), fun e => L.preheader₂_out.1 (e ▸ t₁)⟩
  · exact ⟨fun e => L.preheader₁_out.2 (e ▸ h₂), fun e => L.preheader₂_out.2 (e ▸ h₂)⟩
  · exact ⟨fun e => L.preheader₁_out.2 (e ▸ t₂), fun e => L.preheader₂_out.2 (e ▸ t₂)⟩

section Homes

variable {b d : BlockId}

theorem phiHome_kept (hd : ¬p.Removed d) : p.phiHome d = d := by
  unfold Plan.Removed at hd
  unfold Plan.phiHome
  cases hg : p.guards with
  | none => simp_all
  | some g => simp_all

theorem bodyHome_kept (hd : ¬p.Removed d) : p.bodyHome d = d := by
  unfold Plan.Removed at hd
  unfold Plan.bodyHome
  cases hg : p.guards with
  | none => simp_all
  | some g => simp_all

theorem headerHome_eq : p.headerHome = p.first.header ∨ p.headerHome = p.first.latch := by
  unfold Plan.headerHome
  split
  · exact Or.inl rfl
  · exact Or.inr rfl

@[simp] theorem phiHome_header₂ : p.phiHome p.second.header = p.first.header := if_pos rfl

@[simp] theorem bodyHome_header₂ : p.bodyHome p.second.header = p.headerHome := if_pos rfl

include L

theorem bodyHome_latch₂ : p.bodyHome p.second.latch = p.first.latch := by
  unfold Plan.bodyHome
  by_cases e : p.second.latch = p.second.header
  · rw [if_pos e, Plan.headerHome]
    cases hbody : p.second.body with
    | none => rfl
    | some body => exact absurd e (L.latch_ne_header hbody).2.1
  · rw [if_neg e, if_pos rfl]

theorem bodyHome_preheader₂ : p.bodyHome p.second.preheader = p.first.preheader := by
  have hh : p.second.preheader ≠ p.second.header := fun e => L.preheader₂_out.2 (e ▸ L.header₂_mem)
  have ht : p.second.preheader ≠ p.second.latch := fun e => L.preheader₂_out.2 (e ▸ L.latch₂_mem)
  rw [Plan.bodyHome, if_neg hh, if_neg ht, if_pos rfl]

section Guarded

variable {g : GuardShape} (hg : p.guards = some g)

include hg

theorem guard₂_apart : g.second ≠ p.second.header ∧ g.second ≠ p.second.latch ∧ g.second ≠ p.second.preheader :=
  ⟨(L.apart hg (Or.inr (Or.inl L.header₂_mem))).2.1.symm, (L.apart hg (Or.inr (Or.inl L.latch₂_mem))).2.1.symm,
    (L.apart hg (Or.inr (Or.inr (Or.inr rfl)))).2.1.symm⟩

theorem exit₁_apart : p.first.exit ≠ p.second.header ∧ p.first.exit ≠ p.second.latch ∧
    p.first.exit ≠ p.second.preheader ∧ p.first.exit ≠ g.second := by
  refine ⟨(L.apart hg (Or.inr (Or.inl L.header₂_mem))).2.2.2.1.symm,
    (L.apart hg (Or.inr (Or.inl L.latch₂_mem))).2.2.2.1.symm,
    (L.apart hg (Or.inr (Or.inr (Or.inr rfl)))).2.2.2.1.symm, fun e => ?_⟩
  have hframe := L.nodup_frame hg
  simp [e] at hframe

theorem phiHome_guard₂ : p.phiHome g.second = g.join := by
  simp [Plan.phiHome, hg, (L.guard₂_apart hg).1]

theorem phiHome_exit₁ : p.phiHome p.first.exit = p.second.exit := by
  obtain ⟨h₁, _, _, h₄⟩ := L.exit₁_apart hg
  simp [Plan.phiHome, hg, h₁, h₄]

theorem bodyHome_guard₂ : p.bodyHome g.second = g.first := by
  obtain ⟨h₁, h₂, h₃⟩ := L.guard₂_apart hg
  simp [Plan.bodyHome, hg, h₁, h₂, h₃]

theorem bodyHome_exit₁ : p.bodyHome p.first.exit = p.second.exit := by
  obtain ⟨h₁, h₂, h₃, h₄⟩ := L.exit₁_apart hg
  simp [Plan.bodyHome, hg, h₁, h₂, h₃, h₄]

end Guarded

/-- The blocks that are removed, one by one. -/
theorem removed_cases (hd : p.Removed d) :
    d = p.second.header ∨ d = p.second.latch ∨ d = p.second.preheader ∨
      ∃ g, p.guards = some g ∧ (d = g.second ∨ d = p.first.exit) := by
  rcases hd with h | h | h | rfl | ⟨g, hg, h⟩
  · exact Or.inl h
  · exact Or.inr (Or.inl h)
  · exact Or.inr (Or.inr (Or.inl h))
  · cases hg : p.guards with
    | none => exact Or.inr (Or.inr (Or.inl (L.unguarded hg).1))
    | some g => exact Or.inr (Or.inr (Or.inr ⟨g, rfl, Or.inr rfl⟩))
  · exact Or.inr (Or.inr (Or.inr ⟨g, hg, Or.inl h⟩))

theorem kept_of_mem₁ (hb : b ∈ l₁.blocks) : ¬p.Removed b := fun h => L.not_late_of_mem hb (Or.inl h)

theorem kept_of_early (hb : p.Early l₁ b) : ¬p.Removed b := fun h => L.not_late_of_early hb (Or.inl h)

theorem exit₂_kept : ¬p.Removed p.second.exit := fun h => L.exit₂_not_late (Or.inl h)

theorem join_kept {g : GuardShape} (hg : p.guards = some g) : ¬p.Removed g.join :=
  fun h => L.join_not_late hg (Or.inl h)

/-- What is not removed is none of the removed blocks. -/
theorem kept_iff : ¬p.Removed d ↔ d ≠ p.second.header ∧ d ≠ p.second.latch ∧ d ≠ p.second.preheader ∧
    ∀ g, p.guards = some g → d ≠ g.second ∧ d ≠ p.first.exit := by
  constructor
  · intro h
    refine ⟨fun e => h (Or.inl e), fun e => h (Or.inr (Or.inl e)), fun e => h (Or.inr (Or.inr (Or.inl e))), ?_⟩
    exact fun g hg => ⟨fun e => h (Or.inr (Or.inr (Or.inr (Or.inr ⟨g, hg, e⟩)))),
      fun e => h (Or.inr (Or.inr (Or.inr (Or.inl e))))⟩
  · rintro ⟨h₁, h₂, h₃, h₄⟩ h
    rcases L.removed_cases h with e | e | e | ⟨g, hg, e | e⟩
    · exact h₁ e
    · exact h₂ e
    · exact h₃ e
    · exact (h₄ g hg).1 e
    · exact (h₄ g hg).2 e

/-- A block keeps its code unless it is removed. -/
theorem eq_bodyHome : d = p.bodyHome d ↔ ¬p.Removed d := by
  refine ⟨fun h hr => ?_, fun h => (bodyHome_kept h).symm⟩
  rcases L.removed_cases hr with rfl | rfl | rfl | ⟨g, hg, rfl | rfl⟩
  · rcases headerHome_eq (p := p) with e | e
    · exact L.nodup_loops.1 (e.symm.trans (bodyHome_header₂.symm.trans h.symm))
    · exact L.nodup_loops.2.2.1 (e.symm.trans (bodyHome_header₂.symm.trans h.symm))
  · exact L.nodup_loops.2.2.2.1 (h.trans L.bodyHome_latch₂).symm
  · exact L.preheader_ne (h.trans L.bodyHome_preheader₂).symm
  · have := h.trans (L.bodyHome_guard₂ hg)
    simpa [this] using L.nodup_frame hg
  · have := h.trans (L.bodyHome_exit₁ hg)
    simpa [this] using L.nodup_frame hg

end Homes

section MoveCode

variable (hlen : ∀ b, f.Live b → b < k.blocks.length)

include L hlen

theorem headerHome_lt : p.headerHome < k.blocks.length := by
  rcases headerHome_eq (p := p) with h | h
  · exact h ▸ hlen _ (L.shape₁.live_header L.loop₁)
  · exact h ▸ hlen _ (L.shape₁.live_latch L.loop₁)

/-- The phis of each block once the second loop is moved. -/
theorem phisAt_moveCode : (p.moveCode k).phisAt c =
    (if c = p.second.header then [] else k.phisAt c) ++ if c = p.first.header then k.phisAt p.second.header else [] := by
  have hhh := L.nodup_loops.1
  have hh₁ := hlen _ (L.shape₁.live_header L.loop₁)
  have hh₂ := hlen _ (L.shape₂.live_header L.loop₂)
  have ht₁ := hlen _ (L.shape₁.live_latch L.loop₁)
  have ht₂ := hlen _ (L.shape₂.live_latch L.loop₂)
  have hq₁ := hlen _ (L.shape₁.live_preheader L.loop₁)
  have hq₂ := hlen _ (L.shape₂.live_preheader L.loop₂)
  have hhome := L.headerHome_lt hlen
  unfold Plan.moveCode
  simp only
  rw [Func.phisAt_append _ (by simpa using ht₁) (Func.takeWhile_bodyAt _),
    Func.phisAt_append _ (by simpa using hhome) (Func.takeWhile_bodyAt _), Func.phisAt_clear _ (by simpa using ht₂),
    Func.phisAt_clear _ (by simpa using hh₂), Func.phisAt_movePhis _ hhh.symm (by simpa using hh₂) (by simpa using hh₁)]
  simp only [k.phisAt_moveBody L.preheader_ne.symm hq₂ hq₁]
  by_cases e : c = p.first.header
  · simp [e, hhh]
  · simp [e]

/-- The code of each block once the second loop is moved. -/
theorem bodyAt_moveCode : (p.moveCode k).bodyAt c =
    (if c = p.second.header ∨ c = p.second.latch ∨ c = p.second.preheader then [] else k.bodyAt c) ++
      (if c = p.first.preheader then k.bodyAt p.second.preheader else []) ++
      (if c = p.headerHome then k.bodyAt p.second.header else []) ++
      if c = p.first.latch ∧ p.second.latch ≠ p.second.header then k.bodyAt p.second.latch else [] := by
  obtain ⟨hhh, hht, hth, htt, hqq, hq⟩ := L.nodup_loops
  have hh₁ := hlen _ (L.shape₁.live_header L.loop₁)
  have hh₂ := hlen _ (L.shape₂.live_header L.loop₂)
  have ht₁ := hlen _ (L.shape₁.live_latch L.loop₁)
  have ht₂ := hlen _ (L.shape₂.live_latch L.loop₂)
  have hq₁ := hlen _ (L.shape₁.live_preheader L.loop₁)
  have hq₂ := hlen _ (L.shape₂.live_preheader L.loop₂)
  have hhome := L.headerHome_lt hlen
  have hmove : ∀ c, ((k.moveBody p.second.preheader p.first.preheader).movePhis p.second.header
      p.first.header).bodyAt c = if c = p.second.preheader then [] else if c = p.first.preheader then
        k.bodyAt p.first.preheader ++ k.bodyAt p.second.preheader else k.bodyAt c := fun c => by
    rw [Func.bodyAt_movePhis _ hhh.symm (by simpa using hh₂) (by simpa using hh₁), k.bodyAt_moveBody hqq.symm hq₂ hq₁]
  obtain ⟨hh₂q₁, hh₂q₂⟩ := hq p.second.header (Or.inr (Or.inr (Or.inl rfl)))
  obtain ⟨ht₂q₁, ht₂q₂⟩ := hq p.second.latch (Or.inr (Or.inr (Or.inr rfl)))
  unfold Plan.moveCode
  simp only
  rw [Func.bodyAt_takeOver _ (by simpa using hh₂) (by simpa using ht₂) (by simpa using hhome) (by simpa using ht₁)]
  simp only [hmove, hh₂q₁, hh₂q₂, ht₂q₁, ht₂q₂, if_false]
  congr 2
  by_cases e : c = p.first.preheader
  · simp [e, hqq, hh₂q₁.symm, ht₂q₁.symm]
  · by_cases e' : c = p.second.preheader
    · simp [e', hqq.symm]
    · simp [e, e']

end MoveCode

section Glue

variable {g : GuardShape} (hg : p.guards = some g) (hlen : ∀ b, f.Live b → b < k.blocks.length)

include L hg hlen

/-- The phis and the code of each block once the code and the phis of the second guard are moved. -/
theorem parts_moveGuard (hk : ∀ b, ∀ i ∈ k.bodyAt b, i.isPhi = false) {r : Instr → Instr}
    (hr : r = Func.resolveSources g.second (Func.incomingFrom g.first (k.phisAt g.second))) :
    ((k.moveBody g.second g.first).moveGuardPhis g).parts c =
      ((if c = g.join then k.phisAt g.second else []) ++
          (if c = g.second then [] else if c = g.join then (k.phisAt c).map r else k.phisAt c),
        (if c = g.second then [] else k.bodyAt c) ++ if c = g.first then k.bodyAt g.second else []) := by
  have hne : g.first ≠ g.second := fun e => by simpa [e] using L.nodup_frame hg
  have hj : g.join ≠ g.second := fun e => by simpa [e] using L.join_not_mem hg
  have hl₁ := hlen _ (L.live_guard₁ hg)
  have hl₂ := hlen _ (L.live_guard₂ hg)
  have hlj := hlen _ ((L.live_guard₂ hg).step ((L.mem_successors_guard₂ hg).mpr (Or.inr rfl)))
  have hphis : ∀ c, (k.moveBody g.second g.first).phisAt c = k.phisAt c :=
    fun c => k.phisAt_moveBody hne.symm hl₂ hl₁
  have hbody : ∀ c, (k.moveBody g.second g.first).bodyAt c =
      (if c = g.second then [] else k.bodyAt c) ++ if c = g.first then k.bodyAt g.second else [] := by
    intro c
    rw [k.bodyAt_moveBody hne.symm hl₂ hl₁]
    by_cases e : c = g.first
    · simp [e, hne]
    · simp [e]
  -- the code of no block is touched by the edit of phi sources
  have hid : ((k.moveBody g.second g.first).bodyAt g.join).map r = (k.moveBody g.second g.first).bodyAt g.join := by
    refine (List.map_congr_left fun i hi => ?_).trans (List.map_id _)
    rw [hr]
    refine Func.resolveSources_of_not_phi ?_
    rw [hbody, if_neg hj] at hi
    rcases List.mem_append.mp hi with h | h
    · exact hk _ i h
    · split at h
      · exact hk _ i h
      · cases h
  rw [Func.parts_moveGuardPhis _ hj.symm (by simpa using hl₂) (by simpa using hlj) (r := r) (by rw [hr, hphis]), hid,
    Func.parts, hphis, hphis, hphis]
  simp only [hbody]
  by_cases e₂ : c = g.second
  · simp [e₂, hj.symm, hne.symm]
  · by_cases ej : c = g.join
    · simp [ej, hj]
    · simp [e₂, ej]

/-- The phis and the code of each block once the glue between guarded loops is out of the way. -/
theorem parts_relocateGlue (hk : ∀ b, ∀ i ∈ k.bodyAt b, i.isPhi = false) {r : Instr → Instr}
    (hr : r = Func.resolveSources g.second (Func.incomingFrom g.first (k.phisAt g.second))) :
    (p.relocateGlue g k).parts c =
      ((if c = g.join then k.phisAt g.second else []) ++ (if c = p.second.exit then k.phisAt p.first.exit else []) ++
          (if c = g.second ∨ c = p.first.exit then [] else if c = g.join then (k.phisAt c).map r else k.phisAt c),
        (if c = p.second.exit then k.bodyAt p.first.exit else []) ++
          (if c = g.second ∨ c = p.first.exit then [] else k.bodyAt c) ++
          if c = g.first then k.bodyAt g.second else []) := by
  have hframe := L.nodup_frame hg
  have hjoin := L.join_not_mem hg
  simp only [List.nodup_cons, List.mem_cons, List.not_mem_nil, or_false, not_or, not_false_eq_true, List.nodup_nil,
    and_true] at hframe hjoin
  obtain ⟨⟨_, h₁₃, h₁₄, _, h₁₆⟩, _, ⟨h₃₄, _, h₃₆⟩, ⟨_, h₄₆⟩, _⟩ := hframe
  obtain ⟨_, hj₃, hj₄, _, hj₆⟩ := hjoin
  have hlx₁ := hlen _ (L.shape₁.live_exit L.loop₁)
  have hlx₂ := hlen _ (L.shape₂.live_exit L.loop₂)
  have hmove := fun c => L.parts_moveGuard (c := c) hg hlen hk hr
  have hphis := fun c => congrArg Prod.fst (hmove c)
  have hbody := fun c => congrArg Prod.snd (hmove c)
  unfold Plan.relocateGlue
  rw [Func.parts_retargetAt, Func.parts_mergeExits _ h₃₆ (by simpa using hlx₁) (by simpa using hlx₂), hmove]
  unfold Func.parts at hphis hbody
  simp only at hphis hbody
  simp only [hphis, hbody]
  by_cases e₁ : c = p.first.exit
  · simp [e₁, Ne.symm hj₃, h₃₆, Ne.symm h₁₃]
  · by_cases e₂ : c = p.second.exit
    · simp [e₂, Ne.symm hj₆, Ne.symm hj₃, Ne.symm h₃₆, Ne.symm h₁₃, Ne.symm h₁₆, Ne.symm h₄₆, h₃₄]
    · simp [e₁, e₂]

end Glue

theorem destsAt_eq : f.destsAt c = (f.phisAt c).filterMap Instr.dest? ++ (f.bodyAt c).filterMap Instr.dest? := by
  rw [Func.destsAt, ← f.phisAt_append_bodyAt, List.filterMap_append]

include L in
/-- The second induction variable is the result of a phi of the second header, and of nothing else. -/
theorem stays_of_mem (hv : f.Valid) {i : Instr} (hi : i ∈ f.bodyAt c ∨ i ∈ f.phisAt c ∧ c ≠ p.second.header) :
    p.stays i = true := by
  by_contra hno
  have hd : i.dest? = some p.second.induction := by
    cases h : i.dest? with
    | none => simp [Plan.stays, h] at hno
    | some d =>
      simp only [Plan.stays, h, Option.any_some, Plan.unifies, Bool.not_eq_true', Bool.not_eq_false, Bool.and_eq_true,
        beq_iff_eq] at hno
      rw [hno.2]
  obtain ⟨j, hj, hjd⟩ := L.shape₂.induction
  have hmem : p.second.induction ∈ (f.phisAt p.second.header).filterMap Instr.dest? :=
    List.mem_filterMap.mpr ⟨j, hj, hjd⟩
  have hhead : p.second.induction ∈ f.destsAt p.second.header := by
    rw [destsAt_eq]
    exact List.mem_append_left _ hmem
  rcases hi with hi | ⟨hi, hne⟩
  · have hbody : p.second.induction ∈ (f.bodyAt c).filterMap Instr.dest? := List.mem_filterMap.mpr ⟨i, hi, hd⟩
    have hc : p.second.induction ∈ f.destsAt c := by
      rw [destsAt_eq]
      exact List.mem_append_right _ hbody
    obtain rfl := Func.destsAt_unique hv.once hc hhead
    have hnodup := Func.nodup_destsAt hv.once p.second.header
    rw [destsAt_eq] at hnodup
    exact (List.nodup_append.mp hnodup).2.2 _ hmem _ hbody rfl
  · refine hne (Func.destsAt_unique hv.once ?_ hhead)
    rw [destsAt_eq]
    exact List.mem_append_left _ (List.mem_filterMap.mpr ⟨i, hi, hd⟩)

include L in
/-- The phis and the code of each block once the second induction variable is replaced. -/
theorem parts_unifyInduction (hv : f.Valid) :
    (p.unifyInduction f).parts c = (((f.phisAt c).filter p.stays).map p.renamed, (f.bodyAt c).map p.renamed) := by
  unfold Plan.unifyInduction
  split
  · rename_i hu
    have hren : p.renamed = Instr.renameUses p.second.induction p.first.induction := by
      funext i
      simp [Plan.renamed, hu]
    have hstay : ∀ i : Instr, (p.renamed i).dest? != some p.second.induction ↔ p.stays i := by
      intro i
      rw [p.dest?_renamed]
      cases h : i.dest? <;> simp [Plan.stays, Plan.unifies, hu, h]
    have hparts : ∀ c, (f.renameUses p.second.induction p.first.induction).parts c =
        ((f.phisAt c).map p.renamed, (f.bodyAt c).map p.renamed) := by
      intro c
      rw [hren]
      exact f.parts_mapBlocks fun i => i.isPhi_renameUses _ _
    have hh : p.second.header < (f.renameUses p.second.induction p.first.induction).blocks.length := by
      have h := hv.live_lt (L.shape₂.live_header L.loop₂)
      simpa [Func.renameUses, Func.mapBlocks] using h
    rw [Func.parts_modifyBlock _ hh (w := (((f.phisAt p.second.header).filter p.stays).map p.renamed,
      (f.bodyAt p.second.header).map p.renamed)), hparts]
    · split
      · rw [‹c = p.second.header›]
      · rw [List.filter_eq_self.mpr fun i hi => L.stays_of_mem hv (Or.inr ⟨hi, ‹_›⟩)]
    · intro blk hblk
      have hblk' := hparts p.second.header
      rw [Func.parts_eq _ hblk] at hblk'
      obtain ⟨hphis, hbody⟩ := Prod.mk.inj hblk'
      rw [blk.parts_filter, hphis, hbody, List.filter_map, List.filter_map]
      · have hcomp : (fun i : Instr => i.dest? != some p.second.induction) ∘ p.renamed = p.stays := by
          funext i
          exact Bool.eq_iff_iff.mpr (hstay i)
        rw [hcomp, List.filter_eq_self.mpr fun i hi => L.stays_of_mem hv (Or.inl hi)]
      · intro i hi
        rw [hbody] at hi
        obtain ⟨j, hj, rfl⟩ := List.mem_map.mp hi
        rw [p.isPhi_renamed]
        exact hv.phisFirst _ j hj
  · rename_i hu
    have hstay : p.stays = fun _ => true := by
      funext i
      cases h : i.dest? <;> simp [Plan.stays, Plan.unifies, hu, h]
    have hren : p.renamed = id := by
      funext i
      simp [Plan.renamed, hu]
    simp [Func.parts, hstay, hren]

theorem parts_rewire : (p.rewire k).parts c = k.parts c := by
  unfold Plan.rewire
  cases p.second.body <;> simp only [Func.parts_retargetAt]

theorem length_unifyInduction : (p.unifyInduction f).blocks.length = f.blocks.length := by
  unfold Plan.unifyInduction
  split
  · simp [Func.renameUses, Func.mapBlocks]
  · rfl

theorem length_relocateGlue {g : GuardShape} : (p.relocateGlue g k).blocks.length = k.blocks.length := by
  simp [Plan.relocateGlue]

/-- Fusion keeps the number of blocks, the entry and the parameters until the sweep. -/
theorem frame_splice : (p.splice f).blocks.length = f.blocks.length ∧ (p.splice f).entry = f.entry ∧
    (p.splice f).params = f.params := by
  have hu : (p.unifyInduction f).blocks.length = f.blocks.length ∧ (p.unifyInduction f).entry = f.entry ∧
      (p.unifyInduction f).params = f.params := by
    refine ⟨length_unifyInduction, ?_, ?_⟩ <;> unfold Plan.unifyInduction <;> split <;> rfl
  have hm : ∀ k : Func, (p.moveCode k).blocks.length = k.blocks.length ∧ (p.moveCode k).entry = k.entry ∧
      (p.moveCode k).params = k.params := fun k => ⟨by simp [Plan.moveCode], rfl, rfl⟩
  have hr : ∀ k : Func, (p.rewire k).blocks.length = k.blocks.length ∧ (p.rewire k).entry = k.entry ∧
      (p.rewire k).params = k.params := by
    intro k
    unfold Plan.rewire
    cases p.second.body <;> exact ⟨by simp, rfl, rfl⟩
  have hgl : ∀ k : Func, (p.guards.elim k fun g => p.relocateGlue g k).blocks.length = k.blocks.length ∧
      (p.guards.elim k fun g => p.relocateGlue g k).entry = k.entry ∧
      (p.guards.elim k fun g => p.relocateGlue g k).params = k.params := by
    intro k
    cases p.guards with
    | none => exact ⟨rfl, rfl, rfl⟩
    | some g => exact ⟨length_relocateGlue, rfl, rfl⟩
  unfold Plan.splice
  refine ⟨?_, ?_, ?_⟩
  · rw [(hr _).1, Func.length_renameSources, (hm _).1, (hgl _).1, hu.1]
  · rw [(hr _).2.1, Func.entry_renameSources, (hm _).2.1, (hgl _).2.1, hu.2.1]
  · rw [(hr _).2.2, Func.params_renameSources, (hm _).2.2, (hgl _).2.2, hu.2.2]

@[simp] theorem length_splice : (p.splice f).blocks.length = f.blocks.length := frame_splice.1

@[simp] theorem entry_splice : (p.splice f).entry = f.entry := frame_splice.2.1

@[simp] theorem params_splice : (p.splice f).params = f.params := frame_splice.2.2

section Splice

variable (hv : f.Valid)

include L hv

theorem phisAt_unifyInduction : (p.unifyInduction f).phisAt c = ((f.phisAt c).filter p.stays).map p.renamed :=
  congrArg Prod.fst (L.parts_unifyInduction hv)

theorem bodyAt_unifyInduction : (p.unifyInduction f).bodyAt c = p.bodyPart f c :=
  congrArg Prod.snd (L.parts_unifyInduction hv)

omit L in
theorem isPhi_of_mem_bodyPart {i : Instr} (hi : i ∈ p.bodyPart f c) : i.isPhi = false := by
  obtain ⟨j, hj, rfl⟩ := List.mem_map.mp hi
  rw [p.isPhi_renamed]
  exact hv.phisFirst c j hj

section Guarded

variable {g : GuardShape} (hg : p.guards = some g)

include hg

/-- The phis and the code of each block before phi sources are renamed, for a guarded pair. -/
theorem parts_glued : (p.relocateGlue g (p.unifyInduction f)).parts c =
    ((if c = g.join then (p.unifyInduction f).phisAt g.second else []) ++
        (if c = p.second.exit then (p.unifyInduction f).phisAt p.first.exit else []) ++
        (if c = g.second ∨ c = p.first.exit then []
          else if c = g.join then ((p.unifyInduction f).phisAt c).map (p.resolved f g.join)
          else (p.unifyInduction f).phisAt c),
      (if c = p.second.exit then p.bodyPart f p.first.exit else []) ++
        (if c = g.second ∨ c = p.first.exit then [] else p.bodyPart f c) ++
        if c = g.first then p.bodyPart f g.second else []) := by
  have hbody := fun c => L.bodyAt_unifyInduction hv (c := c)
  rw [L.parts_relocateGlue (r := p.resolved f g.join) hg (by rw [length_unifyInduction]; exact fun _ => hv.live_lt)]
  · simp only [hbody]
  · intro b i hi
    rw [hbody] at hi
    exact isPhi_of_mem_bodyPart hv hi
  · have hne := (L.guard₂_apart hg).1
    funext i
    rw [L.phisAt_unifyInduction hv, List.filter_eq_self.mpr fun i hi => L.stays_of_mem hv (Or.inr ⟨hi, hne⟩)]
    simp [Plan.resolved, hg]

theorem phisAt_glued : (p.relocateGlue g (p.unifyInduction f)).phisAt c =
    (if c = g.join then (p.unifyInduction f).phisAt g.second else []) ++
      (if c = p.second.exit then (p.unifyInduction f).phisAt p.first.exit else []) ++
      (if c = g.second ∨ c = p.first.exit then []
        else if c = g.join then ((p.unifyInduction f).phisAt c).map (p.resolved f g.join)
        else (p.unifyInduction f).phisAt c) :=
  congrArg Prod.fst (L.parts_glued hv hg)

theorem bodyAt_glued : (p.relocateGlue g (p.unifyInduction f)).bodyAt c =
    (if c = p.second.exit then p.bodyPart f p.first.exit else []) ++
      (if c = g.second ∨ c = p.first.exit then [] else p.bodyPart f c) ++
      if c = g.first then p.bodyPart f g.second else [] :=
  congrArg Prod.snd (L.parts_glued hv hg)

/-- The loops and their preheaders are not touched by moving the glue. -/
theorem glued_apart (hc : c ∈ l₁.blocks ∨ c ∈ l₂.blocks ∨ c = p.first.preheader ∨ c = p.second.preheader) :
    (p.relocateGlue g (p.unifyInduction f)).phisAt c = (p.unifyInduction f).phisAt c ∧
      (p.relocateGlue g (p.unifyInduction f)).bodyAt c = p.bodyPart f c := by
  obtain ⟨h₁, h₂, h₃, h₄, h₅⟩ := L.apart hg hc
  rw [L.phisAt_glued hv hg, L.bodyAt_glued hv hg]
  simp [h₁, h₂, h₃, h₄, h₅]

/-- The phis of a block as they are after fusion. -/
theorem phiPart_of_guarded : p.phiPart f c = ((if c = g.join then
      ((p.unifyInduction f).phisAt c).map (p.resolved f g.join) else (p.unifyInduction f).phisAt c)).map
        (Instr.mapSourceBlocks p.sourceName) := by
  rw [L.phisAt_unifyInduction hv, Plan.phiPart]
  split
  · subst c
    simp [Function.comp_def]
  · rename_i h
    simp [Function.comp_def, Plan.resolved, hg, h]

end Guarded

/-- **The phis of the fused function.** -/
theorem phisAt_splice : (p.splice f).phisAt c = (p.phiSources c).flatMap (p.phiPart f) := by
  have hrename := fun k => congrArg Prod.fst (Func.parts_renameSources k (c := c) (σ := p.sourceName) rfl)
  refine (congrArg Prod.fst parts_rewire).trans ((hrename _).trans ?_)
  have hhh := L.nodup_loops.1
  simp only [Plan.phiSources, Plan.flatMap_filter_eq]
  cases hg : p.guards with
  | none =>
    have hpart : ∀ b, p.phiPart f b = ((p.unifyInduction f).phisAt b).map (Instr.mapSourceBlocks p.sourceName) := by
      intro b
      rw [L.phisAt_unifyInduction hv]
      simp [Plan.phiPart, Plan.resolved, hg, Function.comp_def]
    rw [Option.elim_none, L.phisAt_moveCode (by rw [length_unifyInduction]; exact fun _ => hv.live_lt)]
    by_cases e : c = p.second.header
    · simp [e, hhh.symm]
    · have hself : c = p.phiHome c := by simp [Plan.phiHome, hg, e]
      rw [if_neg e]
      simp only [Option.elim_none, List.nil_append, List.flatMap_cons, List.flatMap_nil, List.append_nil, if_pos hself,
        phiHome_header₂, hpart, List.map_append]
      split_ifs <;> rfl
  | some g =>
    have hh₁ := L.apart hg (Or.inl L.header₁_mem)
    have hh₂ := L.apart hg (Or.inr (Or.inl L.header₂_mem))
    have hx : p.second.exit ≠ p.first.exit := fun e => by simpa [e] using L.nodup_frame hg
    have hjoin := L.join_not_mem hg
    simp only [List.mem_cons, List.not_mem_nil, or_false, not_or] at hjoin
    obtain ⟨_, hj₁, hj₂, _, hj₃⟩ := hjoin
    have hpart : ∀ b, b ≠ g.join →
        p.phiPart f b = ((p.unifyInduction f).phisAt b).map (Instr.mapSourceBlocks p.sourceName) := by
      intro b hb
      rw [L.phiPart_of_guarded hv hg, if_neg hb]
    rw [Option.elim_some, L.phisAt_moveCode (by rw [length_relocateGlue, length_unifyInduction]; exact fun _ => hv.live_lt),
      (L.glued_apart hv hg (Or.inr (Or.inl L.header₂_mem))).1]
    simp only [Option.elim_some, List.cons_append, List.nil_append, List.flatMap_cons, List.flatMap_nil, List.append_nil,
      L.phiHome_guard₂ hg, L.phiHome_exit₁ hg, phiHome_header₂, hpart _ (Ne.symm hj₁), hpart _ (Ne.symm hj₂),
      hpart _ hh₂.2.2.1]
    by_cases e : c = p.second.header
    · subst e
      simp [hhh.symm, hh₂.2.2.1, hh₂.2.2.2.2]
    · rw [if_neg e, L.phisAt_glued hv hg, L.phiPart_of_guarded hv hg (c := c)]
      have hself : c = p.phiHome c ↔ ¬(c = g.second ∨ c = p.first.exit) := by
        constructor
        · rintro h (rfl | rfl)
          · exact hj₂ (h.trans (L.phiHome_guard₂ hg)).symm
          · exact hx (h.trans (L.phiHome_exit₁ hg)).symm
        · rw [not_or]
          rintro ⟨h₁, h₂⟩
          simp [Plan.phiHome, hg, e, h₁, h₂]
      simp only [hself, ite_not, List.map_append, apply_ite (List.map (Instr.mapSourceBlocks p.sourceName)), List.map_nil,
        List.append_assoc]

/-- **The code of the fused function.** -/
theorem bodyAt_splice : (p.splice f).bodyAt c = (p.bodySources c).flatMap (p.bodyPart f) := by
  have hrename := fun k => congrArg Prod.snd (Func.parts_renameSources k (c := c) (σ := p.sourceName) rfl)
  have hsource : ∀ b, (p.bodyPart f b).map (Instr.mapSourceBlocks p.sourceName) = p.bodyPart f b := fun b =>
    (List.map_congr_left fun i hi => i.mapSourceBlocks_of_not_phi _ (isPhi_of_mem_bodyPart hv hi)).trans (List.map_id _)
  have hlatch : (if p.second.latch = p.second.header then [] else [p.second.latch]).flatMap
      (fun d => if c = p.bodyHome d then p.bodyPart f d else []) =
        if c = p.first.latch ∧ p.second.latch ≠ p.second.header then p.bodyPart f p.second.latch else [] := by
    by_cases e : p.second.latch = p.second.header
    · simp [e]
    · simp [e, L.bodyHome_latch₂]
  refine (congrArg Prod.snd parts_rewire).trans ((hrename _).trans ?_)
  simp only [Plan.bodySources, Plan.flatMap_filter_eq, List.flatMap_append, hlatch, List.flatMap_cons, List.flatMap_nil,
    List.append_nil, bodyHome_header₂, L.bodyHome_preheader₂]
  cases hg : p.guards with
  | none =>
    have hself : c = p.bodyHome c ↔ ¬(c = p.second.header ∨ c = p.second.latch ∨ c = p.second.preheader) := by
      rw [L.eq_bodyHome, L.kept_iff]
      simp [hg]
    rw [Option.elim_none, L.bodyAt_moveCode (by rw [length_unifyInduction]; exact fun _ => hv.live_lt)]
    simp only [L.bodyAt_unifyInduction hv, hself, ite_not, List.map_append,
      apply_ite (List.map (Instr.mapSourceBlocks p.sourceName)), hsource, List.map_nil, Option.elim_none, List.flatMap_nil,
      List.nil_append, List.append_assoc]
  | some g =>
    have hq := (L.glued_apart hv hg (c := p.second.preheader) (by simp)).2
    have hh := (L.glued_apart hv hg (Or.inr (Or.inl L.header₂_mem))).2
    have ht := (L.glued_apart hv hg (Or.inr (Or.inl L.latch₂_mem))).2
    rw [Option.elim_some, L.bodyAt_moveCode (by rw [length_relocateGlue, length_unifyInduction]; exact fun _ => hv.live_lt), hq, hh, ht]
    have hfront : (if c = p.second.header ∨ c = p.second.latch ∨ c = p.second.preheader then []
        else (p.relocateGlue g (p.unifyInduction f)).bodyAt c) =
          (if c = p.second.exit then p.bodyPart f p.first.exit else []) ++
            (if c = p.bodyHome c then p.bodyPart f c else []) ++ if c = g.first then p.bodyPart f g.second else [] := by
      have hself : c = p.bodyHome c ↔ ¬(c = p.second.header ∨ c = p.second.latch ∨ c = p.second.preheader) ∧
          ¬(c = g.second ∨ c = p.first.exit) := by
        rw [L.eq_bodyHome, L.kept_iff]
        simp [hg, and_assoc]
      by_cases hc : c = p.second.header ∨ c = p.second.latch ∨ c = p.second.preheader
      · have happ : c ≠ g.first ∧ c ≠ p.second.exit := by
          have hmem : c ∈ l₁.blocks ∨ c ∈ l₂.blocks ∨ c = p.first.preheader ∨ c = p.second.preheader := by
            rcases hc with rfl | rfl | rfl
            · exact Or.inr (Or.inl L.header₂_mem)
            · exact Or.inr (Or.inl L.latch₂_mem)
            · exact Or.inr (Or.inr (Or.inr rfl))
          exact ⟨(L.apart hg hmem).1, (L.apart hg hmem).2.2.2.2⟩
        rw [if_pos hc, if_neg happ.2, if_neg fun h => (hself.mp h).1 hc, if_neg happ.1]
        rfl
      · rw [if_neg hc, L.bodyAt_glued hv hg]
        simp only [hself, hc, not_false_eq_true, true_and, ite_not]
    rw [hfront]
    simp only [L.bodyHome_guard₂ hg, L.bodyHome_exit₁ hg, List.map_append,
      apply_ite (List.map (Instr.mapSourceBlocks p.sourceName)), hsource, List.map_nil, Option.elim_some,
      List.flatMap_cons, List.flatMap_nil, List.append_nil, List.append_assoc]

end Splice

/-! ## Its edges -/

theorem term?_unifyInduction : (p.unifyInduction f).term? c = (f.term? c).map p.renamedTerm := by
  unfold Plan.unifyInduction Plan.renamedTerm
  split
  · refine (Func.term?_modifyBlock_of_same _ fun _ => ?_).trans f.term?_mapBlocks
    rfl
  · exact Option.map_id_apply.symm

theorem term?_moveCode : (p.moveCode k).term? c = k.term? c := by
  unfold Plan.moveCode
  simp only [Func.term?_append, Func.term?_clear, Func.term?_movePhis, Func.term?_moveBody]

theorem term?_glued : (p.guards.elim k fun g => p.relocateGlue g k).term? c =
    (k.term? c).map fun t => match p.guards with
      | some g => if c = g.first then t.retarget g.second g.join else t
      | none => t := by
  cases p.guards with
  | none => exact Option.map_id_apply.symm
  | some g =>
    simp only [Option.elim_some, Plan.relocateGlue, Func.term?_retargetAt, Func.term?_mergeExits,
      Func.term?_moveGuardPhis, Func.term?_moveBody]
    split
    · rfl
    · exact Option.map_id_apply.symm

theorem term?_splice : (p.splice f).term? c = (f.term? c).map (p.redirected c) := by
  have hbase : (p.moveCode (p.guards.elim (p.unifyInduction f) fun g => p.relocateGlue g (p.unifyInduction f))).term? c =
      (f.term? c).map fun t => match p.guards with
        | some g => if c = g.first then (p.renamedTerm t).retarget g.second g.join else p.renamedTerm t
        | none => p.renamedTerm t := by
    rw [term?_moveCode, term?_glued, term?_unifyInduction, Option.map_map]
    rfl
  unfold Plan.splice Plan.rewire Plan.redirected
  cases hbody : p.second.body with
  | none =>
    simp only [Func.term?_retargetAt, Func.term?_renameSources, hbase]
    split
    · rw [Option.map_map]
      rfl
    · rfl
  | some body =>
    obtain ⟨first, last⟩ := body
    simp only [Func.term?_retargetAt, Func.term?_renameSources, hbase]
    split_ifs <;> simp only [Option.map_map] <;> rfl

theorem mem_successors_redirected {b : BlockId} :
    c ∈ (p.splice f).successors b ↔ ∃ t, f.term? b = some t ∧ c ∈ (p.redirected b t).targets := by
  unfold Func.successors
  rw [term?_splice]
  cases f.term? b <;> simp

@[simp] theorem targets_renamedTerm {t : Terminator} : (p.renamedTerm t).targets = t.targets := by
  unfold Plan.renamedTerm Terminator.renameUses
  split
  · exact Terminator.targets_mapOperands
  · rfl

/-- Fusion cuts some edges and adds others. -/
theorem mem_successors_splice (L : Layout f l₁ l₂ p) {b : BlockId} :
    c ∈ (p.splice f).successors b ↔ c ∈ f.successors b ∧ ¬p.Cut b c ∨ p.Added b c := by
  have hg₁ : ∀ g, p.guards = some g → g.first ∉ l₁.blocks ∧ g.first ∉ l₂.blocks ∧
      g.second ∈ f.successors g.first := fun g hg =>
    ⟨L.guard₁_out₁ hg, L.guard₁_out₂ hg, (L.mem_successors_guard₁ hg).mpr (Or.inr rfl)⟩
  have hlatch : p.first.exit ∈ f.successors p.first.latch := L.shape₁.mem_successors_latch.mpr (Or.inr rfl)
  have hlast : ∀ first last, p.second.body = some (first, last) → p.first.last ∈ l₁.blocks ∧
      p.first.latch ∈ f.successors p.first.last ∧ p.first.last ≠ p.first.latch ∧ last ∈ l₂.blocks ∧
      p.second.latch ∈ f.successors last := by
    intro first last hbody
    obtain ⟨h₁, h₂, rfl⟩ := L.latch_ne_header hbody
    obtain ⟨a₁, a₂, a₃⟩ := L.shape₁.last_spec L.loop₁ h₁
    obtain ⟨b₁, b₂, _⟩ := L.shape₂.last_spec L.loop₂ h₂
    exact ⟨a₁, a₂, a₃, b₁, b₂⟩
  have ht₁ := L.latch₁_mem
  have hdisj := fun b (h : b ∈ l₁.blocks) => L.disjoint h
  rw [mem_successors_redirected]
  unfold Plan.Cut Plan.Added
  cases hterm : f.term? b with
  | none =>
    have hno : ∀ c, c ∉ f.successors b := by simp [Func.successors, hterm]
    simp only [reduceCtorEq, false_and, exists_false, hno, false_or, false_iff, not_or, not_and, not_exists]
    refine ⟨fun e => absurd (e ▸ hlatch) (hno _), fun g hg e => absurd (e ▸ (hg₁ g hg).2.2) (hno _), ?_⟩
    intro first last hbody
    obtain ⟨_, h₂, _, _, h₅⟩ := hlast first last hbody
    exact ⟨fun e => absurd (e ▸ h₂) (hno _), fun e => absurd (e ▸ h₅) (hno _)⟩
  | some t =>
    have hsucc : ∀ {c}, c ∈ f.successors b ↔ c ∈ t.targets := mem_successors_of_term hterm
    simp only [Option.some.injEq, exists_eq_left', hsucc]
    have hexit : b = p.first.latch → p.first.exit ∈ t.targets := fun e => hsucc.mp (e ▸ hlatch)
    cases hbody : p.second.body with
    | none =>
      cases hg : p.guards with
      | none =>
        simp only [Plan.redirected, hg, hbody]
        split_ifs <;> simp only [Terminator.mem_targets_retarget, targets_renamedTerm] <;> grind
      | some g =>
        obtain ⟨hout₁, _, hskip⟩ := hg₁ g hg
        have hskip' : b = g.first → g.second ∈ t.targets := fun e => hsucc.mp (e ▸ hskip)
        simp only [Plan.redirected, hg, hbody]
        split_ifs <;> simp only [Terminator.mem_targets_retarget, targets_renamedTerm] <;> grind
    | some body =>
      obtain ⟨first, last⟩ := body
      obtain ⟨hl₁, hinto₁, hne, hl₂, hinto₂⟩ := hlast first last hbody
      have hlast₁ : b = p.first.last → p.first.latch ∈ t.targets := fun e => hsucc.mp (e ▸ hinto₁)
      have hlast₂ : b = last → p.second.latch ∈ t.targets := fun e => hsucc.mp (e ▸ hinto₂)
      cases hg : p.guards with
      | none =>
        simp only [Plan.redirected, hg, hbody]
        split_ifs <;> simp only [Terminator.mem_targets_retarget, targets_renamedTerm] <;> grind
      | some g =>
        obtain ⟨hout₁, hout₂, hskip⟩ := hg₁ g hg
        have hskip' : b = g.first → g.second ∈ t.targets := fun e => hsucc.mp (e ▸ hskip)
        simp only [Plan.redirected, hg, hbody]
        split_ifs <;> simp only [Terminator.mem_targets_retarget, targets_renamedTerm] <;> grind

end Layout

end SsaFusion
