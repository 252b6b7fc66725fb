import SsaFusion.Proofs.Fusion.Crossings

/-!
# Both guards decide alike

The guards of a pair compare the same values in the same way. What the first guard reads is settled when it decides, so that the
second guard, which decides later, reads the same: either both loops are entered or both are passed by (`guards_agree`).
-/

namespace SsaFusion

open Plan (phiDests)

theorem Func.AvailableOut.mono {f : Func} {a b : BlockId} {v : ValueId} (h : f.AvailableOut a v) (hdom : f.Dominates a b) :
    f.AvailableOut b v := by
  refine h.imp_right ?_
  rintro ⟨d, hd, hv⟩
  exact ⟨d, hd.trans hdom, hv⟩

/-- A value that an operation on two operands defines comes from an instruction that is run before. -/
theorem Func.exists_binary {f : Func} (hn : f.defined.Nodup) {b : BlockId} {v d : ValueId} {op : BinOp} {x y : Operand}
    (hop : f.definingOp? v = some (.binary op d x y)) (hav : f.AvailableOut b v) :
    ∃ a n i, f.instrAt? a n = some i ∧ i.op = .binary op v x y ∧ f.Dominates a b := by
  obtain ⟨⟨a, n, i⟩, hdef, hi⟩ := Option.map_eq_some_iff.mp hop
  obtain ⟨hat, hdest⟩ := Func.instrAt?_of_definition? hdef
  have hi' : i.op = .binary op d x y := hi
  obtain rfl : d = v := by
    rw [Instr.dest?, hi'] at hdest
    exact Option.some.inj hdest
  have hmem : d ∈ f.destsAt a := Func.mem_destsAt_iff_index.mpr ⟨n, i, hat, hdest⟩
  refine ⟨a, n, i, hat, hi', ?_⟩
  rcases hav with hpar | ⟨c, hdom, hmem'⟩
  · exact absurd hpar (Func.not_mem_params hn hmem)
  · exact Func.destsAt_unique hn hmem hmem' ▸ hdom

/-- The two sides of a branch. -/
theorem branch_sides {f : Func} {b q o t e : BlockId} {c : Operand} (ht : f.term? b = some (.branch c t e))
    (h : (f.term? b).bind (Terminator.other? q) = some o) : t = q ∧ e = o ∨ t ≠ q ∧ e = q ∧ t = o := by
  rw [ht, Option.bind_some, Terminator.other?] at h
  split at h
  · exact Or.inl ⟨‹_›, Option.some.inj h⟩
  · split at h
    · exact Or.inr ⟨‹_›, ‹_›, Option.some.inj h⟩
    · cases h

namespace Machine

variable {m m' : Machine} {o : Operand}

theorem read_congr (h : ∀ v, o = .var v → m'.env.get? v = m.env.get? v) : m'.read o = m.read o := by
  cases o with
  | lit l => rfl
  | var v => rw [read, read, h v rfl]

/-- A branch takes the side that its condition selects. -/
theorem branch_eq_goto {b t e n : BlockId} (h : m.transfer b (.branch o t e) = .ok (.goto n)) :
    ∃ c, m.readBool o = .ok c ∧ n = if c then t else e := by
  obtain ⟨c, hc, h⟩ := bind_eq_ok h
  cases h
  exact ⟨c, hc, rfl⟩

end Machine

namespace PairRun

variable {f : Func} {l₁ l₂ : Loop} {p : Plan} {args : List Word} {limit N i j s t e : Nat} {M : Nat → Moment} {r : RunResult}
variable {v : ValueId} {g : GuardShape}
variable (W : PairRun f l₁ l₂ p args limit M N r) (P : Crossing f l₁ l₂ p M N s t e) (hg : p.guards = some g)
variable (hi : (M i).EndsAt f g.first) (hj : (M j).EndsAt f g.second) (hsi : s ≤ i) (hit : i < t) (htj : t ≤ j) (hje : j < e)

include W P hg hi hsi hit htj hje

/-- What is available at the first guard is the same when the second one decides. -/
theorem settled_guard (hav : f.AvailableOut g.first v) : (M j).machine.env.get? v = (M i).machine.env.get? v := by
  have L := W.layout
  have C := W.completes
  have hnot := (L.not_own_of_available W.valid (Plan.top_guarded hg ▸ Layout.top_front) hav).1
  have hphi : ¬p.GuardPhi f v := by
    rintro ⟨g', hg', h⟩
    exact hnot ⟨g'.second, Or.inr (Or.inr ⟨g', hg', Or.inl rfl⟩), Layout.mem_destsAt.mpr (Or.inl h)⟩
  have hown : ¬p.Own f l₂ v := fun h => hnot h.1
  have hback : p.Back l₂ g.second := Or.inr (Or.inr ⟨g, hg, Or.inl rfl⟩)
  rw [P.back_env L W.valid C hown htj hje]
  have hends : (M i).EndsAt f p.top := Plan.top_guarded hg ▸ hi
  have hav₂ := hav.mono (L.guard₁_dominates_guard₂ hg)
  refine (P.settled L W.valid C hav₂ hback hown hphi (Or.inl hends) hsi hit.le).resolve_right ?_
  rintro ⟨h, -⟩
  rw [hg] at h
  cases h

include hj

theorem condition_agrees {c₁ c₂ : Operand} {t₁ e₁ t₂ e₂ : BlockId} (ht₁ : f.term? g.first = some (.branch c₁ t₁ e₁))
    (ht₂ : f.term? g.second = some (.branch c₂ t₂ e₂)) (hsame : c₁ = c₂ ∨ (Snapshot.of f).sameComparison c₁ c₂ = true) :
    (M j).machine.read c₂ = (M i).machine.read c₁ := by
  have L := W.layout
  have C := W.completes
  have hsettled : ∀ v, f.AvailableOut g.first v → (M j).machine.env.get? v = (M i).machine.env.get? v := fun _ hav =>
    W.settled_guard P hg hi hsi hit htj hje hav
  have hiN : i ≤ N := by have := P.turn_lt; have := P.le; omega
  have hav₁ : ∀ v, c₁ = .var v → f.AvailableOut g.first v := fun v h =>
    W.valid.termReads _ (L.live_guard₁ hg) _ ht₁ v (by rw [h]; exact List.mem_singleton_self v)
  have hav₂ : ∀ v, c₂ = .var v → f.AvailableOut g.second v := fun v h =>
    W.valid.termReads _ (L.live_guard₂ hg) _ ht₂ v (by rw [h]; exact List.mem_singleton_self v)
  rcases hsame with rfl | hsame
  · exact Machine.read_congr fun v hv => hsettled v (hav₁ v hv)
  · unfold Snapshot.sameComparison at hsame
    split at hsame
    · rename_i op d₁ x y op' d₂ x' y' hop₁ hop₂
      simp only [Bool.and_eq_true, beq_iff_eq] at hsame
      obtain ⟨⟨⟨-, rfl⟩, rfl⟩, rfl⟩ := hsame
      obtain ⟨v₁, hv₁, hop₁⟩ := Option.bind_eq_some_iff.mp hop₁
      obtain ⟨v₂, hv₂, hop₂⟩ := Option.bind_eq_some_iff.mp hop₂
      obtain rfl := Operand.eq_var_of_var? hv₁
      obtain rfl := Operand.eq_var_of_var? hv₂
      obtain ⟨a₁, n₁, i₁, hat₁, hi₁, hdom₁⟩ := Func.exists_binary W.valid.once hop₁ (hav₁ v₁ rfl)
      obtain ⟨a₂, n₂, i₂, hat₂, hi₂, hdom₂⟩ := Func.exists_binary W.valid.once hop₂ (hav₂ v₂ rfl)
      have hlive₁ := hdom₁.live (L.live_guard₁ hg)
      obtain ⟨z₁, hz₁, henv₁⟩ := C.coherent W.valid hat₁ hlive₁ hi₁ hiN
        (by rw [hi.1, Func.availableBefore_end hi.2]; exact hav₁ v₁ rfl)
      obtain ⟨z₂, hz₂, henv₂⟩ := C.coherent W.valid hat₂ (hdom₂.live (L.live_guard₂ hg)) hi₂ (hje.le.trans P.le)
        (by rw [hj.1, Func.availableBefore_end hj.2]; exact hav₂ v₂ rfl)
      -- both comparisons read the same values
      have hphi : i₁.isPhi = false := by rw [Instr.isPhi, hi₁]; rfl
      have hread : ∀ o ∈ i₁.operands, (M j).machine.read o = (M i).machine.read o := fun o ho =>
        Machine.read_congr fun v hv => hsettled v
          ((Func.readable_operand W.valid hat₁ hphi hlive₁ ho v (by rw [hv]; rfl)).out.mono hdom₁)
      have hoperands : i₁.operands = [x, y] := by rw [Instr.operands, hi₁]; rfl
      have hz : (M j).machine.binary op x y = (M i).machine.binary op x y :=
        Machine.binary_congr (hread x (by simp [hoperands])) (hread y (by simp [hoperands]))
      rw [hz₁, hz₂] at hz
      cases hz
      rw [Machine.read, Machine.read, henv₁, henv₂]
    · cases hsame

/-- **Both loops are entered or both are passed by.** -/
theorem guards_agree (hmove₁ : (M i).Moves f (M (i + 1))) (hmove₂ : (M j).Moves f (M (j + 1))) :
    (M (i + 1)).block = p.first.preheader ∧ (M (j + 1)).block = p.second.preheader ∨
      (M (i + 1)).block = g.second ∧ (M (j + 1)).block = g.join := by
  have L := W.layout
  have hmatch := W.guards g hg
  obtain ⟨hguard₁, hguard₂, -⟩ := L.plan.guarded g hg
  unfold Snapshot.guardsMatch at hmatch
  rw [hguard₁, hguard₂, L.shape₁.preheader, L.shape₂.preheader] at hmatch
  simp only at hmatch
  split at hmatch
  · rename_i c₁ t₁ e₁ c₂ t₂ e₂ ht₁ ht₂
    have ht₁ : f.term? g.first = some (.branch c₁ t₁ e₁) := ht₁
    have ht₂ : f.term? g.second = some (.branch c₂ t₂ e₂) := ht₂
    rw [Bool.and_eq_true, Bool.or_eq_true, beq_iff_eq, beq_iff_eq] at hmatch
    obtain ⟨hside, hcond⟩ := hmatch
    have hsides₁ := branch_sides ht₁ (L.guards hg).first
    have hsides₂ := branch_sides ht₂ (L.guards hg).second
    obtain ⟨_, hterm₁, hgoto₁⟩ := hmove₁.transfer
    obtain ⟨_, hterm₂, hgoto₂⟩ := hmove₂.transfer
    rw [hi.1] at hterm₁
    rw [hj.1] at hterm₂
    cases hterm₁.symm.trans ht₁
    cases hterm₂.symm.trans ht₂
    obtain ⟨b₁, hb₁, hn₁⟩ := Machine.branch_eq_goto hgoto₁
    obtain ⟨b₂, hb₂, hn₂⟩ := Machine.branch_eq_goto hgoto₂
    rw [Machine.readBool, W.condition_agrees P hg hi hj hsi hit htj hje ht₁ ht₂ hcond, ← Machine.readBool, hb₁] at hb₂
    cases hb₂
    rw [hn₁, hn₂]
    rcases hsides₁ with ⟨rfl, rfl⟩ | ⟨hne₁, rfl, rfl⟩ <;> rcases hsides₂ with ⟨rfl, rfl⟩ | ⟨hne₂, rfl, rfl⟩
    · cases b₁ <;> simp
    · simp [hne₂] at hside
    · simp [hne₁] at hside
    · cases b₁ <;> simp
  · cases hmatch

end PairRun

end SsaFusion
