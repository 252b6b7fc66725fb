import SsaFusion.Proofs.Fusion.Walks

/-!
# New homes of values

Each value of the original is defined in one block of the fused function (`HomeOf`, `mem_destsAt_of_home`), where the first
induction variable stands for the second if that is replaced. If the block that defined a value dominated another, then the
new home dominates it, too (`exists_home`); phis of the second guard are the exception, as they move behind their block.
-/

namespace SsaFusion

namespace Plan

variable (p : Plan) (f : Func)

/-- The values that the phis of a block define. -/
def phiDests (f : Func) (b : BlockId) : List ValueId := (f.phisAt b).filterMap Instr.dest?

/-- The values that the code of a block defines. -/
def bodyDests (f : Func) (b : BlockId) : List ValueId := (f.bodyAt b).filterMap Instr.dest?

/-- A block defines a value after fusion, or the value that stands for it. -/
def HomeOf (v : ValueId) (x : BlockId) : Prop :=
  ∃ b, v ∈ phiDests f b ∧ x = p.phiHome b ∨ v ∈ bodyDests f b ∧ x = p.bodyHome b

theorem eq_of_unifies {v : ValueId} (h : p.unifies v = true) : p.unify = true ∧ v = p.second.induction := by
  simpa [unifies] using h

/-- The operand that stands for an operand. -/
def standInOperand : Operand → Operand
  | .lit l => .lit l
  | .var v => .var (Snapshot.standIn p v)

theorem eq_var_of_standInOperand {p : Plan} {o : Operand} {w : ValueId} (h : p.standInOperand o = .var w) :
    ∃ v, o = .var v ∧ w = Snapshot.standIn p v := by
  cases o with
  | lit l => cases h
  | var v =>
    cases h
    exact ⟨v, rfl, rfl⟩

theorem valuesOf_standIn (os : List Operand) :
    valuesOf (os.map p.standInOperand) = (valuesOf os).map (Snapshot.standIn p) := by
  unfold valuesOf
  rw [List.filterMap_map, List.map_filterMap]
  refine List.filterMap_congr fun o _ => ?_
  cases o <;> rfl

theorem rename_eq (h : p.unify = true) :
    Operand.rename p.second.induction p.first.induction = p.standInOperand := by
  funext o
  cases o with
  | lit => rfl
  | var v => by_cases e : v = p.second.induction <;> simp [Operand.rename, standInOperand, Snapshot.standIn, unifies, h, e]

theorem standInOperand_eq_id (h : p.unify = false) : p.standInOperand = id := by
  funext o
  cases o <;> simp [standInOperand, Snapshot.standIn, unifies, h]

/-- Renamed instructions have the operands that stand for the old ones. -/
theorem operands_renamed (i : Instr) : (p.renamed i).operands = i.operands.map p.standInOperand := by
  unfold renamed
  split
  · rename_i h
    rw [← p.rename_eq h]
    exact Op.operands_mapOperands ..
  · rename_i h
    rw [p.standInOperand_eq_id (by simpa using h), List.map_id]

theorem reads_renamed (i : Instr) : (p.renamed i).reads = i.reads.map (Snapshot.standIn p) := by
  unfold Instr.reads
  rw [operands_renamed, valuesOf_standIn]

theorem sources?_renamed (i : Instr) :
    (p.renamed i).sources? = i.sources?.map (List.map fun s => (s.1, p.standInOperand s.2)) := by
  unfold renamed
  split
  · rename_i h
    rw [← p.rename_eq h]
    exact i.sources?_renameUses _ _
  · rename_i h
    rw [p.standInOperand_eq_id (by simpa using h)]
    simp

theorem operands_renamedTerm (t : Terminator) : (p.renamedTerm t).operands = t.operands.map p.standInOperand := by
  unfold renamedTerm
  split
  · rename_i h
    rw [← p.rename_eq h]
    exact Terminator.operands_mapOperands
  · rename_i h
    rw [p.standInOperand_eq_id (by simpa using h), List.map_id]

/-- Redirecting a terminator does not change what it reads. -/
theorem operands_redirected (b : BlockId) (t : Terminator) : (p.redirected b t).operands = (p.renamedTerm t).operands := by
  have hite : ∀ {c : Prop} [Decidable c] {t : Terminator} {old new : BlockId},
      (if c then t.retarget old new else t).operands = t.operands := by
    intro c _ t old new
    split
    · exact Terminator.operands_retarget
    · rfl
  unfold redirected
  rcases p.guards with _ | g <;> rcases p.second.body with _ | ⟨first, last⟩ <;> simp only [hite]

end Plan

open Plan (phiDests bodyDests)

namespace Layout

variable {f : Func} {l₁ l₂ : Loop} {p : Plan} {b c d x : BlockId} {v : ValueId} (L : Layout f l₁ l₂ p)

theorem mem_destsAt : v ∈ f.destsAt b ↔ v ∈ phiDests f b ∨ v ∈ bodyDests f b := by
  rw [destsAt_eq, List.mem_append]
  rfl

section Valid

variable (hv : f.Valid)

include L hv

omit hv in
theorem induction₂_mem : p.second.induction ∈ phiDests f p.second.header := by
  obtain ⟨i, hi, hd⟩ := L.shape₂.induction
  exact List.mem_filterMap.mpr ⟨i, hi, hd⟩

omit hv in
theorem induction₁_mem : p.first.induction ∈ phiDests f p.first.header := by
  obtain ⟨i, hi, hd⟩ := L.shape₁.induction
  exact List.mem_filterMap.mpr ⟨i, hi, hd⟩

omit L in
/-- A value is defined by a phi or by code, not by both. -/
theorem not_mem_bodyDests (h : v ∈ phiDests f b) : v ∉ bodyDests f c := by
  intro h'
  obtain rfl := Func.destsAt_unique hv.once (mem_destsAt.mpr (Or.inl h)) (mem_destsAt.mpr (Or.inr h'))
  have hnodup := Func.nodup_destsAt hv.once b
  rw [destsAt_eq] at hnodup
  exact (List.nodup_append.mp hnodup).2.2 _ h _ h' rfl

/-- A replaced value is a phi of the second header. -/
theorem unifies_spec (h : p.unifies v = true) :
    (∀ b, v ∈ f.destsAt b → b = p.second.header) ∧ (∀ b, v ∉ bodyDests f b) ∧ v ∉ f.params := by
  obtain ⟨_, rfl⟩ := p.eq_of_unifies h
  have hmem := L.induction₂_mem
  have hat := mem_destsAt.mpr (Or.inl hmem)
  exact ⟨fun b hb => Func.destsAt_unique hv.once hb hat, fun b => not_mem_bodyDests hv hmem,
    Func.not_mem_params hv.once hat⟩

omit L hv in
theorem standIn_of_not_unifies (h : p.unifies v = false) : Snapshot.standIn p v = v := by
  simp [Snapshot.standIn, h]

/-- The value that stands for a value is the value itself, but for a replaced induction variable. -/
theorem standIn_eq (hb : b ≠ p.second.header ∧ v ∈ f.destsAt b ∨ v ∈ bodyDests f b ∨ v ∈ f.params) :
    Snapshot.standIn p v = v := by
  by_cases h : p.unifies v = true
  · obtain ⟨h₁, h₂, h₃⟩ := L.unifies_spec hv h
    rcases hb with ⟨hne, hb⟩ | hb | hb
    · exact absurd (h₁ b hb) hne
    · exact absurd hb (h₂ b)
    · exact absurd hb h₃
  · exact standIn_of_not_unifies (by simpa using h)

/-- No replaced value stands for another. -/
theorem unifies_standIn (v : ValueId) : p.unifies (Snapshot.standIn p v) = false := by
  by_cases hu : p.unifies v = true
  · have hfirst : p.unifies p.first.induction = false := by
      by_contra h
      have := (L.unifies_spec hv (by simpa using h)).1 _ (mem_destsAt.mpr (Or.inl L.induction₁_mem))
      exact L.nodup_loops.1 this
    simpa [Snapshot.standIn, hu] using hfirst
  · simp [Snapshot.standIn, hu]

omit hv in
theorem mem_dests_standIn (h : v ∈ f.dests) : Snapshot.standIn p v ∈ f.dests := by
  by_cases hu : p.unifies v = true
  · simpa [Snapshot.standIn, hu] using Func.mem_dests.mpr ⟨_, mem_destsAt.mpr (Or.inl L.induction₁_mem)⟩
  · simpa [Snapshot.standIn, hu] using h

theorem mem_destsAt_splice : v ∈ (p.splice f).destsAt x ↔
    ∃ b, v ∈ phiDests f b ∧ p.unifies v = false ∧ x = p.phiHome b ∨ v ∈ bodyDests f b ∧ x = p.bodyHome b := by
  rw [destsAt_eq, L.phisAt_splice hv, L.bodyAt_splice hv, List.mem_append, exists_or]
  refine or_congr ?_ ?_
  · simp only [List.mem_filterMap, List.mem_flatMap, p.mem_phiSources, Plan.phiPart, List.mem_map, List.mem_filter,
      Plan.stays, phiDests]
    constructor
    · rintro ⟨_, ⟨b, hb, i, ⟨hi, hstay⟩, rfl⟩, hd⟩
      simp only [Instr.dest?_mapSourceBlocks, p.dest?_resolved, p.dest?_renamed] at hd
      refine ⟨b, ⟨i, hi, hd⟩, ?_, hb⟩
      simpa [hd] using hstay
    · rintro ⟨b, ⟨i, hi, hd⟩, hstay, hb⟩
      exact ⟨_, ⟨b, hb, i, ⟨hi, by simp [hd, hstay]⟩, rfl⟩, by simpa using hd⟩
  · simp only [List.mem_filterMap, List.mem_flatMap, p.mem_bodySources, Plan.bodyPart, List.mem_map, bodyDests]
    constructor
    · rintro ⟨_, ⟨b, hb, i, hi, rfl⟩, hd⟩
      exact ⟨b, ⟨i, hi, by simpa using hd⟩, hb⟩
    · rintro ⟨b, ⟨i, hi, hd⟩, hb⟩
      exact ⟨_, ⟨b, hb, i, hi, rfl⟩, by simpa using hd⟩

/-- **The new home of a value defines it, or the value that stands for it.** -/
theorem mem_destsAt_of_home (h : p.HomeOf f v x) : Snapshot.standIn p v ∈ (p.splice f).destsAt x := by
  rw [L.mem_destsAt_splice hv]
  obtain ⟨b, ⟨hb, rfl⟩ | ⟨hb, rfl⟩⟩ := h
  · by_cases hu : p.unifies v = true
    · obtain ⟨_, rfl⟩ := p.eq_of_unifies hu
      obtain rfl := (L.unifies_spec hv hu).1 b (mem_destsAt.mpr (Or.inl hb))
      refine ⟨p.first.header, Or.inl ⟨?_, L.unifies_standIn hv _, ?_⟩⟩
      · simpa [Snapshot.standIn, hu] using L.induction₁_mem
      · rw [phiHome_header₂, phiHome_kept (L.kept_of_mem₁ L.header₁_mem)]
    · have hu : p.unifies v = false := by simpa using hu
      rw [standIn_of_not_unifies hu]
      exact ⟨b, Or.inl ⟨hb, hu, rfl⟩⟩
  · rw [L.standIn_eq hv (Or.inr (Or.inl hb))]
    exact ⟨b, Or.inr ⟨hb, rfl⟩⟩

/-- A block that stays keeps its values. -/
theorem mem_destsAt_kept (hx : ¬p.Removed x) (hu : p.unifies v = false) (h : v ∈ f.destsAt x) :
    v ∈ (p.splice f).destsAt x := by
  rw [L.mem_destsAt_splice hv]
  rcases mem_destsAt.mp h with h | h
  · exact ⟨x, Or.inl ⟨h, hu, (phiHome_kept hx).symm⟩⟩
  · exact ⟨x, Or.inr ⟨h, (bodyHome_kept hx).symm⟩⟩

/-! ### Each value is still defined once -/

omit hv in
theorem phiHome_ne (hd : d = p.second.header ∨ ∃ g, p.guards = some g ∧ (d = g.second ∨ d = p.first.exit)) :
    d ≠ p.phiHome d := by
  rcases hd with rfl | ⟨g, hg, rfl | rfl⟩
  · rw [phiHome_header₂]
    exact L.nodup_loops.1.symm
  · rw [L.phiHome_guard₂ hg]
    exact fun e => L.join_kept hg (e ▸ Or.inr (Or.inr (Or.inr (Or.inr ⟨g, hg, rfl⟩))))
  · rw [L.phiHome_exit₁ hg]
    exact fun e => L.exit₂_kept (e ▸ Or.inr (Or.inr (Or.inr (Or.inl rfl))))

omit L hv in
/-- A list is filtered to one without repetition if it repeats only one element, and that does not pass. -/
theorem nodup_filter_middle {q : BlockId → Bool} {xs ys : List BlockId} (hn : (xs ++ ys).Nodup)
    (hb : q b = true → b ∉ xs ++ ys) : ((xs ++ b :: ys).filter q).Nodup := by
  by_cases h : q b = true
  · exact (List.nodup_middle.mpr (List.nodup_cons.mpr ⟨hb h, hn⟩)).filter _
  · rw [List.filter_append, List.filter_cons_of_neg h, ← List.filter_append]
    exact hn.filter _

omit hv in
theorem nodup_phiSources (c : BlockId) : (p.phiSources c).Nodup := by
  refine nodup_filter_middle ?_ fun hc hmem => ?_
  · cases hg : p.guards with
    | none => simp
    | some g =>
      obtain ⟨h₁, _, _, h₄⟩ := L.exit₁_apart hg
      simp [(L.guard₂_apart hg).1, h₁, h₄.symm]
  · refine L.phiHome_ne ?_ (of_decide_eq_true hc)
    cases hg : p.guards with
    | none => exact Or.inl (by simpa [hg] using hmem)
    | some g =>
      have : (c = g.second ∨ c = p.first.exit) ∨ c = p.second.header := by simpa [hg, or_assoc] using hmem
      exact this.symm.imp_right fun h => ⟨g, rfl, h⟩

omit hv in
theorem nodup_bodySources (c : BlockId) : (p.bodySources c).Nodup := by
  have hh : p.second.preheader ≠ p.second.header := (L.nodup_loops.2.2.2.2.2 _ (by simp)).2.symm
  have ht : p.second.preheader ≠ p.second.latch := (L.nodup_loops.2.2.2.2.2 _ (by simp)).2.symm
  rw [Plan.bodySources, List.append_assoc, List.append_assoc, List.cons_append]
  refine nodup_filter_middle ?_ fun hc hmem => ?_
  · cases hg : p.guards with
    | none => by_cases e : p.second.latch = p.second.header <;> simp [e, hh, ht, eq_comm (a := p.second.header)]
    | some g =>
      obtain ⟨h₁, h₂, h₃, h₄⟩ := L.exit₁_apart hg
      obtain ⟨k₁, k₂, k₃⟩ := L.guard₂_apart hg
      by_cases e : p.second.latch = p.second.header <;> simp [e, hh, ht, h₁, h₂, h₃, h₄, k₁, k₂, k₃, eq_comm (a := p.second.header)]
  · obtain ⟨h₁, h₂, h₃, h₄⟩ := L.kept_iff.mp (L.eq_bodyHome.mp (of_decide_eq_true hc))
    cases hg : p.guards with
    | none => by_cases e : p.second.latch = p.second.header <;> simp [hg, e, h₁, h₂, h₃] at hmem
    | some g =>
      obtain ⟨h₄, h₅⟩ := h₄ g hg
      by_cases e : p.second.latch = p.second.header <;> simp [hg, e, h₁, h₂, h₃, h₄, h₅] at hmem

theorem phiDests_splice :
    phiDests (p.splice f) c = (p.phiSources c).flatMap fun d => (phiDests f d).filter (!p.unifies ·) := by
  unfold phiDests
  rw [L.phisAt_splice hv, List.filterMap_flatMap]
  refine List.flatMap_congr fun d _ => ?_
  rw [Plan.phiPart, List.filterMap_map, List.filterMap_filter, List.filter_filterMap]
  refine List.filterMap_congr fun i _ => ?_
  simp only [Plan.stays, Function.comp_def, Instr.dest?_mapSourceBlocks, p.dest?_resolved, p.dest?_renamed]
  cases i.dest? <;> simp [Option.filter]

theorem mem_phiDests_splice :
    v ∈ phiDests (p.splice f) c ↔ ∃ b, v ∈ phiDests f b ∧ p.unifies v = false ∧ c = p.phiHome b := by
  rw [L.phiDests_splice hv, List.mem_flatMap]
  simp only [p.mem_phiSources, List.mem_filter, Bool.not_eq_true', and_comm, and_left_comm]

/-- A block that stays keeps its phis. -/
theorem mem_phiDests_kept (hc : ¬p.Removed c) (h : v ∈ phiDests f c) : v ∈ phiDests (p.splice f) c := by
  refine (L.mem_phiDests_splice hv).mpr ⟨c, h, ?_, (phiHome_kept hc).symm⟩
  by_contra hu
  have := (L.unifies_spec hv (by simpa using hu)).1 c (mem_destsAt.mpr (Or.inl h))
  exact hc (Or.inl this)

theorem bodyDests_splice : bodyDests (p.splice f) c = (p.bodySources c).flatMap (bodyDests f) := by
  unfold bodyDests
  rw [L.bodyAt_splice hv, List.filterMap_flatMap]
  refine List.flatMap_congr fun d _ => ?_
  simp [Plan.bodyPart, List.filterMap_map]

/-- No block of the fused function defines a value twice. -/
theorem nodup_destsAt_splice (c : BlockId) : ((p.splice f).destsAt c).Nodup := by
  have hpiece : ∀ d, (phiDests f d ++ bodyDests f d).Nodup := fun d => destsAt_eq (f := f) ▸ Func.nodup_destsAt hv.once d
  have hapart : ∀ {d e : BlockId}, d ≠ e → ∀ v, v ∈ f.destsAt d → v ∉ f.destsAt e :=
    fun hne v hd he => hne (Func.destsAt_unique hv.once hd he)
  have hsplit : (p.splice f).destsAt c = phiDests (p.splice f) c ++ bodyDests (p.splice f) c := destsAt_eq
  rw [hsplit, L.phiDests_splice hv, L.bodyDests_splice hv]
  refine List.nodup_append.mpr ⟨List.nodup_flatMap.mpr ⟨fun d _ => ?_, ?_⟩, List.nodup_flatMap.mpr ⟨fun d _ => ?_, ?_⟩, ?_⟩
  · exact (List.nodup_append.mp (hpiece d)).1.filter _
  · refine (L.nodup_phiSources c).imp fun hne v hd he => ?_
    exact hapart hne v (mem_destsAt.mpr (Or.inl (List.mem_filter.mp hd).1))
      (mem_destsAt.mpr (Or.inl (List.mem_filter.mp he).1))
  · exact (List.nodup_append.mp (hpiece d)).2.1
  · refine (L.nodup_bodySources c).imp fun hne v hd he => ?_
    exact hapart hne v (mem_destsAt.mpr (Or.inr hd)) (mem_destsAt.mpr (Or.inr he))
  · rintro v hp _ hb rfl
    obtain ⟨d, _, hd⟩ := List.mem_flatMap.mp hp
    obtain ⟨e, _, he⟩ := List.mem_flatMap.mp hb
    exact not_mem_bodyDests hv (List.mem_filter.mp hd).1 he

/-- No two blocks of the fused function define the same value. -/
theorem destsAt_splice_unique {c' : BlockId} (h : v ∈ (p.splice f).destsAt c) (h' : v ∈ (p.splice f).destsAt c') :
    c = c' := by
  obtain ⟨b, hb⟩ := (L.mem_destsAt_splice hv).mp h
  obtain ⟨b', hb'⟩ := (L.mem_destsAt_splice hv).mp h'
  rcases hb with ⟨hb, _, rfl⟩ | ⟨hb, rfl⟩ <;> rcases hb' with ⟨hb', _, rfl⟩ | ⟨hb', rfl⟩
  · rw [Func.destsAt_unique hv.once (mem_destsAt.mpr (Or.inl hb)) (mem_destsAt.mpr (Or.inl hb'))]
  · exact absurd hb' (not_mem_bodyDests hv hb)
  · exact absurd hb (not_mem_bodyDests hv hb')
  · rw [Func.destsAt_unique hv.once (mem_destsAt.mpr (Or.inr hb)) (mem_destsAt.mpr (Or.inr hb'))]

theorem nodup_defined_splice : (p.splice f).defined.Nodup := by
  unfold Func.defined
  rw [params_splice]
  refine List.nodup_append.mpr ⟨(List.nodup_append.mp hv.once).1, ?_, ?_⟩
  · rw [Func.dests_eq_range, List.nodup_flatMap]
    refine ⟨fun c _ => L.nodup_destsAt_splice hv c, List.nodup_range.imp fun hne v hc hc' => ?_⟩
    exact hne (L.destsAt_splice_unique hv hc hc')
  · rintro v hp _ hd rfl
    obtain ⟨c, hc⟩ := Func.mem_dests.mp hd
    obtain ⟨b, ⟨h, _⟩ | ⟨h, _⟩⟩ := (L.mem_destsAt_splice hv).mp hc
    · exact Func.not_mem_params hv.once (mem_destsAt.mpr (Or.inl h)) hp
    · exact Func.not_mem_params hv.once (mem_destsAt.mpr (Or.inr h)) hp

end Valid

/-! ## Dominance of the new homes -/

section Dominance

include L

/-- The blocks that take over code of the second loop lead to the first latch. -/
theorem home_dominates_latch₁ (hx : x = p.first.header ∨ x = p.first.latch ∨ x = p.first.preheader ∨
    ∃ g, p.guards = some g ∧ x = g.first) : (p.splice f).Dominates x p.first.latch := by
  have hlatch : ¬p.Inner l₂ p.first.latch := fun h => L.disjoint L.latch₁_mem h.1
  have hpre := L.shape₁.preheader_dominates_header L.loop₁
  have hhead := L.shape₁.header_dominates L.loop₁ L.latch₁_mem
  rcases hx with rfl | rfl | rfl | ⟨g, hg, rfl⟩
  · exact L.dominates_kept (L.kept_of_mem₁ L.header₁_mem) hhead hlatch
  · exact .refl _
  · exact L.dominates_kept (L.kept_of_early (Or.inr (Or.inl rfl))) (hpre.trans hhead) hlatch
  · exact L.dominates_kept (L.kept_of_early (Or.inr (Or.inr ⟨g, hg, rfl⟩)))
      ((L.guard₁_dominates_preheader₁ hg).trans (hpre.trans hhead)) hlatch

theorem headerHome_dominates_latch₁ : (p.splice f).Dominates p.headerHome p.first.latch := by
  rcases headerHome_eq (p := p) with h | h
  · exact L.home_dominates_latch₁ (Or.inl h)
  · exact L.home_dominates_latch₁ (Or.inr (Or.inl h))

/-- The code of a block dominates what it did, from its new place. -/
theorem dominates_bodyHome (hdom : f.Dominates d b) (hb : ¬p.Inner l₂ b) : (p.splice f).Dominates (p.bodyHome d) b := by
  by_cases hd : p.Removed d
  · have skip : ∀ {x}, (∀ g, p.guards = some g → d ≠ g.second) →
        ∀ g, p.guards = some g → d = g.second → x = g.first ∨ x = g.join := fun h g hg e => absurd e (h g hg)
    rcases L.removed_cases hd with rfl | rfl | rfl | ⟨g, hg, rfl | rfl⟩
    · rw [bodyHome_header₂]
      exact L.dominates_moved hd (Or.inl L.headerHome_dominates_latch₁)
        (skip fun g hg => (L.guard₂_apart hg).1.symm) hdom hb
    · rw [L.bodyHome_latch₂]
      exact L.dominates_moved hd (Or.inl (.refl _)) (skip fun g hg => (L.guard₂_apart hg).2.1.symm) hdom hb
    · rw [L.bodyHome_preheader₂]
      exact L.dominates_moved hd (Or.inl (L.home_dominates_latch₁ (Or.inr (Or.inr (Or.inl rfl)))))
        (skip fun g hg => (L.guard₂_apart hg).2.2.symm) hdom hb
    · rw [L.bodyHome_guard₂ hg]
      refine L.dominates_moved hd (Or.inl (L.home_dominates_latch₁ (Or.inr (Or.inr (Or.inr ⟨g, hg, rfl⟩)))))
        (fun g' hg' _ => Or.inl ?_) hdom hb
      cases hg.symm.trans hg'
      rfl
    · rw [L.bodyHome_exit₁ hg]
      exact L.dominates_moved hd (Or.inr rfl) (skip fun g hg => (L.exit₁_apart hg).2.2.2) hdom hb
  · rw [bodyHome_kept hd]
    exact L.dominates_kept hd hdom hb

omit L in
theorem no_phi (hb : (Snapshot.of f).withoutPhis b = .ok ()) : v ∉ phiDests f b := by
  have : f.phisAt b = [] := Snapshot.phisAt_of_withoutPhis hb
  simp [phiDests, this]

/-- Blocks that have phis and are removed. -/
theorem removed_of_phi (hd : p.Removed d) (hv : v ∈ phiDests f d) :
    d = p.second.header ∨ ∃ g, p.guards = some g ∧ (d = g.second ∨ d = p.first.exit) := by
  rcases L.removed_cases hd with rfl | rfl | rfl | h
  · exact Or.inl rfl
  · by_cases e : p.second.latch = p.second.header
    · exact Or.inl e
    · exact absurd hv (no_phi (L.plan.code.latch₂ e))
  · exact absurd hv (no_phi L.plan.code.preheader₂)
  · exact Or.inr h

/-- The phis of a block dominate what they did, from their new place; those of the second guard only behind the join. -/
theorem dominates_phiHome (hv : v ∈ phiDests f d) (hdom : f.Dominates d b) (hb : ¬p.Inner l₂ b)
    (hjoin : ∀ g, p.guards = some g → d = g.second → f.Dominates g.join b) :
    (p.splice f).Dominates (p.phiHome d) b := by
  by_cases hd : p.Removed d
  · rcases L.removed_of_phi hd hv with rfl | ⟨g, hg, rfl | rfl⟩
    · rw [phiHome_header₂]
      refine L.dominates_moved hd (Or.inl (L.home_dominates_latch₁ (Or.inl rfl))) (fun g hg e => ?_) hdom hb
      exact absurd e (L.guard₂_apart hg).1.symm
    · rw [L.phiHome_guard₂ hg]
      exact L.dominates_kept (L.join_kept hg) (hjoin g hg rfl) hb
    · rw [L.phiHome_exit₁ hg]
      refine L.dominates_moved hd (Or.inr rfl) (fun g hg e => ?_) hdom hb
      exact absurd e (L.exit₁_apart hg).2.2.2
  · rw [phiHome_kept hd]
    exact L.dominates_kept hd hdom hb

/-! ### At the latches -/

/-- Between header and latch there are blocks only if there is a body. -/
theorem body_of_inner (hb : p.Inner l₂ b) : ∃ first last, p.second.body = some (first, last) := by
  cases hbody : p.second.body with
  | some body => exact ⟨_, _, rfl⟩
  | none =>
    have hends : ∀ {x}, Reaches f.successors (· ∈ l₂.blocks) p.second.header x →
        x = p.second.header ∨ x = p.second.latch := by
      intro x hx
      induction hx with
      | refl _ => exact Or.inl rfl
      | @tail y z _ hstep hz ih =>
        have hlatch : y = p.second.latch → z = p.second.header ∨ z = p.second.latch := by
          rintro rfl
          rcases L.shape₂.mem_successors_latch.mp hstep with h | h
          · exact Or.inl h
          · exact absurd (h ▸ hz) L.exit₂_out.2
        by_cases e : y = p.second.latch
        · exact hlatch e
        · obtain rfl := ih.resolve_right e
          rw [mem_successors_of_term (L.shape₂.straight hbody (Ne.symm e))] at hstep
          exact Or.inr (List.mem_singleton.mp hstep)
    have hr := L.loop₂.reaches_from_header hb.1
    rw [← L.shape₂.header] at hr
    exact absurd (hends hr) (not_or.mpr hb.2)

/-- From the first exit, control can get to the second latch without leaving the late blocks. -/
theorem reaches_latch₂ : Reaches f.successors (p.Late l₂) p.first.exit p.second.latch := by
  refine L.cross (fun _ => Or.inl) fun first last hbody => ?_
  exact (L.inner_reaches hbody (L.inner_last hbody).1).mono fun _ h => ⟨Or.inr h, h⟩

/-- What dominates the second latch from outside the late blocks dominates the first. -/
theorem dominates_latch₁_of_latch₂ (hd : ¬p.Late l₂ d) (hdom : f.Dominates d p.second.latch) :
    f.Dominates d p.first.latch := by
  rw [Func.dominates_iff_doms] at hdom ⊢
  intro h
  refine hdom (h.trans (.head h.ok_end (L.shape₁.mem_successors_latch.mpr (Or.inr rfl)) ?_))
  exact L.reaches_latch₂.mono fun x hx e => hd (e ▸ hx)

/-- Around guarded loops, the second loop can be run without the first. -/
theorem exit₁_not_dominates_latch₂ {g : GuardShape} (hg : p.guards = some g) :
    ¬f.Dominates p.first.exit p.second.latch := by
  intro hdom
  have hlate : p.Late l₂ p.first.exit := L.late_iff.mpr (Or.inl rfl)
  obtain ⟨h₁, _, h₃, h₄⟩ := L.exit₁_apart hg
  have hhead : f.Dominates p.first.exit p.second.header := by
    rcases hdom.total (L.shape₂.header_dominates L.loop₂ L.latch₂_mem) (L.shape₂.live_latch L.loop₂) with h | h
    · exact h
    · have hback := h.of_step h₁.symm (L.shape₁.mem_successors_latch.mpr (Or.inr rfl))
      exact absurd hback (L.not_dominates_early (Or.inl (Or.inl rfl)) (Or.inl L.latch₁_mem))
  have hpre := hhead.of_step h₁ (L.mem_successors_preheader₂.mpr rfl)
  have hguard := hpre.of_step h₃ ((L.mem_successors_guard₂ hg).mpr (Or.inl rfl))
  have hfirst := hguard.of_step h₄ ((L.mem_successors_guard₁ hg).mpr (Or.inr rfl))
  exact L.not_dominates_early hlate (Or.inr (Or.inr ⟨g, hg, rfl⟩)) hfirst

theorem kept_dominates_latch₁ (hd : ¬p.Removed d) (hdom : f.Dominates d p.second.latch) :
    (p.splice f).Dominates d p.first.latch := by
  by_cases hin : p.Inner l₂ d
  · obtain ⟨first, last, hbody⟩ := L.body_of_inner hin
    exact L.dominates_latch_of_inner hin hdom hbody
  · exact L.dominates_kept hd (L.dominates_latch₁_of_latch₂ (fun h => h.elim hd hin) hdom)
      fun h => L.disjoint L.latch₁_mem h.1

/-- What dominated the second latch dominates the first, from its new place. -/
theorem bodyHome_dominates_latch₁ (hdom : f.Dominates d p.second.latch) :
    (p.splice f).Dominates (p.bodyHome d) p.first.latch := by
  by_cases hd : p.Removed d
  · rcases L.removed_cases hd with rfl | rfl | rfl | ⟨g, hg, rfl | rfl⟩
    · rw [bodyHome_header₂]
      exact L.headerHome_dominates_latch₁
    · rw [L.bodyHome_latch₂]
      exact .refl _
    · rw [L.bodyHome_preheader₂]
      exact L.home_dominates_latch₁ (Or.inr (Or.inr (Or.inl rfl)))
    · rw [L.bodyHome_guard₂ hg]
      exact L.home_dominates_latch₁ (Or.inr (Or.inr (Or.inr ⟨g, hg, rfl⟩)))
    · exact absurd hdom (L.exit₁_not_dominates_latch₂ hg)
  · rw [bodyHome_kept hd]
    exact L.kept_dominates_latch₁ hd hdom

theorem phiHome_dominates_latch₁ (hv : v ∈ phiDests f d) (hdom : f.Dominates d p.second.latch)
    (hjoin : ∀ g, p.guards = some g → d = g.second → f.Dominates g.join p.second.latch) :
    (p.splice f).Dominates (p.phiHome d) p.first.latch := by
  by_cases hd : p.Removed d
  · rcases L.removed_of_phi hd hv with rfl | ⟨g, hg, rfl | rfl⟩
    · rw [phiHome_header₂]
      exact L.home_dominates_latch₁ (Or.inl rfl)
    · rw [L.phiHome_guard₂ hg]
      exact L.kept_dominates_latch₁ (L.join_kept hg) (hjoin g hg rfl)
    · exact absurd hdom (L.exit₁_not_dominates_latch₂ hg)
  · rw [phiHome_kept hd]
    exact L.kept_dominates_latch₁ hd hdom

end Dominance

end Layout

end SsaFusion
