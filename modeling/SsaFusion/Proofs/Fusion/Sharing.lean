import SsaFusion.Proofs.Fusion.Crossings
import SsaFusion.Proofs.Symbolic.Evolution

/-!
# What both loops of a pair know

In the fused loop a value of the first loop is read in each round, where the second loop used to read what the last round left.
So an expression means the same to both loops only if it reads nothing of the first loop but what every round computes alike
(`Unvaried`). That holds of the careful expressions of all that the second loop knows (`unvaried_of_shared`): what is computed
in front of the first loop, by the first loop alike in every round, or behind it from such values (`Shared`).
-/

namespace SsaFusion

open Func (OperandHas)

/-! ## Atoms -/

/-- What is not known reads nothing. -/
theorem SymExpr.isKnown_of_mem_atoms {e : SymExpr} {x : Atom} (h : x ∈ e.atoms) : e.isKnown = true := by
  cases e with
  | unknown => cases h
  | _ => rfl

theorem BinOp.atoms_join {op : BinOp} {join : SymExpr → SymExpr → SymExpr} (hop : op.join? = some join) {e₁ e₂ : SymExpr} :
    (join e₁ e₂).atoms ⊆ e₁.atoms ++ e₂.atoms := by
  intro x hx
  have hk := SymExpr.isKnown_of_mem_atoms hx
  cases op <;> cases hop
  · exact (SymExpr.plus_exactIn hk).2.2.2 hx
  · exact (SymExpr.minus_exactIn hk).2.2.2 hx
  · exact (SymExpr.times_exactIn hk).2.2.2 hx

theorem SymExpr.atoms_recurrence_minus {a e : SymExpr} {v : ValueId} {h : BlockId} {x : Atom}
    (hx : x ∈ (SymExpr.recurrence a (e.minus (.leaf v)) h).atoms) :
    x = .round h ∨ x ∈ a.atoms ∨ x ∈ e.atoms ∨ x = .value v := by
  obtain ⟨-, hstep, -, hatoms⟩ := SymExpr.recurrence_exactIn (SymExpr.isKnown_of_mem_atoms hx)
  have hx := hatoms hx
  simp only [List.mem_cons, List.mem_append] at hx
  refine hx.imp_right (Or.imp_right fun hx => ?_)
  simpa [SymExpr.atoms] using (SymExpr.minus_exactIn hstep).2.2.2 hx

/-! ## What is shared -/

/-- A loop computes a value alike in every round, or not at all. -/
def Func.RepeatsIn (f : Func) (l : Loop) (v : ValueId) : Prop := ∃ depth, (Snapshot.of f).repeats? l depth v = some true

/-- What an atom reads is not changed by going from round to round of a loop. -/
def Func.Unvaried (f : Func) (l : Loop) : Atom → Prop
  | .value v => f.RepeatsIn l v
  | .round h => h ∉ l.blocks

/-- A value that is there without the first loop, or that the first loop computes alike in every round, or that is computed
behind it. -/
def Plan.Shared (p : Plan) (f : Func) (l₁ l₂ : Loop) (v : ValueId) : Prop :=
  v ∈ f.params ∨ ∃ b, v ∈ f.destsAt b ∧
    (¬f.Dominates l₁.header b ∨ p.guards = none ∧ (p.Back l₂ b ∨ b ∈ l₁.blocks ∧ f.RepeatsIn l₁ v))

theorem Func.RepeatsIn.of_outside {f : Func} (hn : f.defined.Nodup) {l : Loop} {v : ValueId}
    (h : ∀ b, v ∈ f.destsAt b → b ∉ l.blocks) : f.RepeatsIn l v := by
  refine ⟨1, ?_⟩
  have hout : (Snapshot.of f).definedIn l v = false := by
    by_contra hin
    obtain ⟨b, hb, hv⟩ := (Snapshot.definedIn_iff hn).mp (by simpa using hin)
    exact h b hv hb
  rw [Snapshot.repeats?, hout]
  rfl

/-- What a loop computes alike in every round, a pure instruction computes from what is computed so. -/
theorem Func.RepeatsIn.inv {f : Func} (hn : f.defined.Nodup) {l : Loop} {v : ValueId} (h : f.RepeatsIn l v) {b : BlockId}
    {n : Nat} {i : Instr} (hb : b ∈ l.blocks) (hi : f.instrAt? b n = some i) (hd : i.dest? = some v) :
    i.isPure = true ∧ ∀ w ∈ i.reads, f.RepeatsIn l w := by
  obtain ⟨depth, hrep⟩ := h
  cases depth with
  | zero => cases hrep
  | succ depth =>
    rcases Snapshot.repeats?_succ hn hrep with hout | ⟨c, m, j, -, hj, hjd, hpure, hreads⟩
    · exact absurd hb (hout b n ⟨i, hi, hd⟩)
    · obtain ⟨rfl, rfl⟩ := Func.DefinedAt.unique hn ⟨i, hi, hd⟩ ⟨j, hj, hjd⟩
      cases hi.symm.trans hj
      exact ⟨hpure, fun w hw => ⟨depth, hreads w hw⟩⟩

namespace Layout

variable {f : Func} {l₁ l₂ : Loop} {p : Plan} {b d : BlockId} {u v : ValueId} {n : Nat} {i : Instr} (L : Layout f l₁ l₂ p)

include L

theorem not_dominates_top : ¬f.Dominates l₁.header p.top := fun hdom =>
  L.top_out₁ (hdom.antisymm (L.top_dominates_front (Or.inl L.loop₁.header_mem)) L.loop₁.live ▸ L.loop₁.header_mem)

/-- Around guarded loops there is a way past the first. -/
theorem not_dominates_back (hg : p.guards ≠ none) (hb : p.Back l₂ b) : ¬f.Dominates l₁.header b := by
  intro hdom
  rcases L.dominates_back_cases hb hdom (L.not_back_of_front (Or.inl L.loop₁.header_mem)) with htop | ⟨hnone, -⟩
  · exact L.not_dominates_top htop
  · exact hg hnone

omit L in
/-- Around unguarded loops the back is the second loop and its preheader. -/
theorem back_unguarded (hg : p.guards = none) (hb : p.Back l₂ b) : b ∈ l₂.blocks ∨ b = p.second.preheader := by
  rcases hb with hb | hb | ⟨g, hg', -⟩
  · exact Or.inl hb
  · exact Or.inr hb
  · rw [hg] at hg'
    cases hg'

/-- What dominates a block of the first loop from outside is not behind its header. -/
theorem not_dominates_of_outside (hb : b ∈ l₁.blocks) (hdom : f.Dominates d b) (hd : d ∉ l₁.blocks) :
    ¬f.Dominates l₁.header d := fun h =>
  hd (h.antisymm (Func.dominates_header_of_outside L.loop₁ hdom hb hd) L.loop₁.live ▸ L.loop₁.header_mem)

/-- What the back computes is shared. -/
theorem shared_of_back (hb : p.Back l₂ b) (hv : v ∈ f.destsAt b) : p.Shared f l₁ l₂ v := by
  refine Or.inr ⟨b, hv, ?_⟩
  cases hg : p.guards with
  | none => exact Or.inr ⟨rfl, Or.inl hb⟩
  | some g => exact Or.inl (L.not_dominates_back (by simp [hg]) hb)

/-- What is available in the back is shared, if what it holds of the first loop is computed alike in every round. -/
theorem shared_of_available (hb : p.Back l₂ b) (hav : f.AvailableOut b v)
    (hfirst : p.guards = none → ∀ d ∈ l₁.blocks, v ∈ f.destsAt d → f.RepeatsIn l₁ v) : p.Shared f l₁ l₂ v := by
  rcases hav with hparam | ⟨d, hdom, hvd⟩
  · exact Or.inl hparam
  · by_cases hback : p.Back l₂ d
    · exact L.shared_of_back hback hvd
    · refine Or.inr ⟨d, hvd, ?_⟩
      rcases L.dominates_back_cases hb hdom hback with htop | ⟨hg, hd, -⟩
      · exact Or.inl fun h => L.not_dominates_top (h.trans htop)
      · exact Or.inr ⟨hg, Or.inr ⟨hd, hfirst hg d hd hvd⟩⟩

section Scalars

variable (hv : f.Valid) (hscalars : (Snapshot.of f).scalarDependences l₁ l₂ = some [])

include hv hscalars

omit L in
/-- What the second loop reads of the first is computed alike in every round. -/
theorem repeats_of_readsAt (hb : b ∈ l₂.blocks) (hread : f.ReadsAt b v) (hd : d ∈ l₁.blocks) (hvd : v ∈ f.destsAt d) :
    f.RepeatsIn l₁ v := by
  obtain ⟨blk, hblk, hread⟩ := hread
  exact ⟨_, Snapshot.isRepeated?_of_unreported hv.once hscalars hb hblk hread
    ((Snapshot.definedIn_iff hv.once).mpr ⟨d, hd, hvd⟩)⟩

/-- What an instruction of the back reads is shared. -/
theorem shared_of_instr (hb : p.Back l₂ b) (hi : f.instrAt? b n = some i) (hphi : i.isPhi = false) (hr : v ∈ i.reads) :
    p.Shared f l₁ l₂ v := by
  have hav := Func.readable_operand hv hi hphi (L.live_of_back hb) (i.mem_reads.mp hr) v rfl
  have hmem := List.mem_of_getElem? hi
  refine L.shared_of_available hb hav.out fun hg d hd hvd => ?_
  rcases back_unguarded hg hb with hb | rfl
  · exact repeats_of_readsAt hv hscalars hb (.of_instr hmem hr) hd hvd
  · refine absurd hr (L.preheader₂_not_reads hv hd hvd ?_)
    rw [← Func.phisAt_append_bodyAt, List.mem_append] at hmem
    refine hmem.resolve_left fun h => ?_
    rw [f.isPhi_of_mem_phisAt h] at hphi
    cases hphi

/-- What the terminator of a block of the second loop reads is shared. -/
theorem shared_of_term (hb : b ∈ l₂.blocks) {t : Terminator} (ht : f.term? b = some t) (hr : v ∈ valuesOf t.operands) :
    p.Shared f l₁ l₂ v := by
  have hav := hv.termReads b (L.loop₂.live_of_mem hb) t ht v hr
  exact L.shared_of_available (Or.inl hb) hav fun _ d hd hvd => repeats_of_readsAt hv hscalars hb (.of_term ht hr) hd hvd

/-- What a phi of the second loop receives is shared, around unguarded loops. -/
theorem shared_of_source (hg : p.guards = none) (hb : b ∈ l₂.blocks) (hi : i ∈ f.phisAt b)
    {sources : List (BlockId × Operand)} (hs : i.sources? = some sources) (hsrc : (d, .var v) ∈ sources) (hlive : f.Live d) :
    p.Shared f l₁ l₂ v := by
  have hok := hv.phis b (L.loop₂.live_of_mem hb) i (Func.mem_instrsOf_of_phi hi) sources hs
  have hne : b ≠ p.turn := by
    rw [Plan.turn_unguarded hg]
    exact fun e => L.preheader₂_out.2 (e ▸ hb)
  have hback := L.into_back (Or.inl hb) hne hlive (hok.edges _ hsrc)
  exact L.shared_of_available hback (hok.reads _ hsrc hlive v rfl) fun _ c hc hvc =>
    repeats_of_readsAt hv hscalars hb (.of_source hi hs hsrc) hc hvc

/-- **What a shared value is computed from is shared.** -/
theorem shared_of_read (hshared : p.Shared f l₁ l₂ v) (hi : f.instrAt? b n = some i) (hd : i.dest? = some v)
    (hphi : i.isPhi = false) (hb : f.Live b) (hr : u ∈ i.reads) : p.Shared f l₁ l₂ u := by
  have hdef : v ∈ f.destsAt b := Func.mem_destsAt_iff_index.mpr ⟨n, i, hi, hd⟩
  have hav := Func.readable_operand hv hi hphi hb (i.mem_reads.mp hr) u rfl
  obtain ⟨b', hvb', hcases⟩ := hshared.resolve_left (Func.not_mem_params hv.once hdef)
  obtain rfl := Func.destsAt_unique hv.once hvb' hdef
  rcases hcases with hout | ⟨hg, hback | ⟨hin, hrep⟩⟩
  · exact hav.out.imp_right fun ⟨d, hdom, hud⟩ => ⟨d, hud, Or.inl fun h => hout (h.trans hdom)⟩
  · exact L.shared_of_instr hv hscalars hback hi hphi hr
  · refine hav.out.imp_right fun ⟨d, hdom, hud⟩ => ⟨d, hud, ?_⟩
    by_cases hdin : d ∈ l₁.blocks
    · exact Or.inr ⟨hg, Or.inr ⟨hdin, (hrep.inv hv.once hin hi hd).2 u hr⟩⟩
    · exact Or.inl (L.not_dominates_of_outside hin hdom hdin)

omit hscalars in
theorem unvaried_of_shared_value (h : p.Shared f l₁ l₂ v) : f.Unvaried l₁ (.value v) := by
  rcases h with hparam | ⟨b, hvb, hout | ⟨-, hback | ⟨-, hrep⟩⟩⟩
  · exact .of_outside hv.once fun b hb _ => Func.not_mem_params hv.once hb hparam
  · refine .of_outside hv.once fun c hc hmem => hout ?_
    exact Func.destsAt_unique hv.once hc hvb ▸ L.loop₁.dominates_of_mem hmem
  · refine .of_outside hv.once fun c hc hmem => L.not_back_of_front (Or.inl hmem) ?_
    exact Func.destsAt_unique hv.once hc hvb ▸ hback
  · exact hrep

/-! ## Expressions -/

omit hscalars in
/-- What is settled where the first loop does not dominate has nothing of the first loop in it. -/
theorem unvaried_of_settled (hb : ¬f.Dominates l₁.header b) {x : Atom} (hx : f.Settled b n x) : f.Unvaried l₁ x := by
  cases x with
  | round h => exact fun hmem => hb ((L.loop₁.dominates_of_mem hmem).trans hx)
  | value w =>
    have hav : f.AvailableBefore b n w := hx
    have hshared : p.Shared f l₁ l₂ w :=
      hav.out.imp_right fun ⟨d, hdom, hwd⟩ => ⟨d, hwd, Or.inl fun h => hb (h.trans hdom)⟩
    exact L.unvaried_of_shared_value hv hshared

omit L hv hscalars in
theorem unvaried_of_operand {D : ValueId → SymExpr → Prop} {o : Operand} {e : SymExpr}
    (hshared : ∀ u, o = .var u → p.Shared f l₁ l₂ u)
    (h : OperandHas (fun u e => D u e ∧ (p.Shared f l₁ l₂ u → ∀ x ∈ e.atoms, f.Unvaried l₁ x)) o e) :
    ∀ x ∈ e.atoms, f.Unvaried l₁ x := by
  cases o with
  | lit c =>
    cases c with
    | int n =>
      obtain rfl : e = .const n := h
      exact fun x hx => by cases hx
    | bool b =>
      obtain rfl : e = .unknown := h
      exact fun x hx => by cases hx
  | var u => exact h.2 (hshared u rfl)

section Recurrence

variable (hentry : f.phisAt f.entry = []) {l : Loop} (hl : l ∈ f.loops) (hi : f.instrAt? l.header n = some i)
  {sources : List (BlockId × Operand)} (hop : i.op = .phi v sources) {start next : Operand}
  (hsplit : Subject.splitSources l sources = some (start, next))

include hentry hl hi hop hsplit

/-- What a header phi of the second loop receives is shared, around unguarded loops. -/
theorem shared_of_sources (hg : p.guards = none) (hin : l.header ∈ l₂.blocks) :
    (∀ u, start = .var u → p.Shared f l₁ l₂ u) ∧ ∀ u, next = .var u → p.Shared f l₁ l₂ u := by
  have hphi := Func.header_phi_mem hv hi hop
  have hloop := isLoop_of_mem hl
  obtain ⟨c, d, -, hd, hsources⟩ := Func.splitSources_spec hsplit
  have hne : l.header ≠ f.entry := fun e => by
    rw [e, hentry] at hphi
    cases hphi
  have hc := (Func.dominates_header_of_way_in hv hl hi hop hne hd hsources).live hloop.live
  have hsrc : i.sources? = some sources := by rw [Instr.sources?, hop]; rfl
  refine ⟨fun u hu => ?_, fun u hu => ?_⟩
  · exact L.shared_of_source hv hscalars hg hin hphi hsrc (hu ▸ (hsources _).mpr (Or.inl rfl)) hc
  · exact L.shared_of_source hv hscalars hg hin hphi hsrc (hu ▸ (hsources _).mpr (Or.inr rfl)) (hloop.live_of_mem hd)

/-- In a recurrence of a shared value nothing is of the first loop but what every round computes alike, if that holds of what
its phi receives. -/
theorem unvaried_of_recurrence {a e : SymExpr}
    (hdescribes : f.Describes .word [] 0 v (SymExpr.recurrence a (e.minus (.leaf v)) l.header))
    (hstart : (∀ u, start = .var u → p.Shared f l₁ l₂ u) → ∀ x ∈ a.atoms, f.Unvaried l₁ x)
    (hnext : (∀ u, next = .var u → p.Shared f l₁ l₂ u) → ∀ x ∈ e.atoms, f.Unvaried l₁ x)
    (hshared : p.Shared f l₁ l₂ v) :
    ∀ x ∈ (SymExpr.recurrence a (e.minus (.leaf v)) l.header).atoms, f.Unvaried l₁ x := by
  have hdest : i.dest? = some v := by rw [Instr.dest?, hop]; rfl
  have hdef : v ∈ f.destsAt l.header := Func.mem_destsAt_iff_index.mpr ⟨n, i, hi, hdest⟩
  have hself := L.unvaried_of_shared_value hv hshared
  intro x hx
  obtain ⟨b, hvb, hcases⟩ := hshared.resolve_left (Func.not_mem_params hv.once hdef)
  obtain rfl := Func.destsAt_unique hv.once hvb hdef
  rcases hcases with hout | ⟨hg, hback | ⟨hin, hrep⟩⟩
  · rcases hdescribes.supports x hx with rfl | ⟨b, m, hvb, hsettled⟩
    · exact hself
    · obtain rfl := Func.destsAt_unique hv.once hvb.mem_destsAt hdef
      exact L.unvaried_of_settled hv hout hsettled
  · have hin : l.header ∈ l₂.blocks := by
      refine (back_unguarded hg hback).resolve_right fun e => Layout.no_phi L.plan.code.preheader₂ (v := v) ?_
      exact e ▸ List.mem_filterMap.mpr ⟨i, Func.header_phi_mem hv hi hop, hdest⟩
    obtain ⟨ha, he⟩ := L.shared_of_sources hv hscalars hentry hl hi hop hsplit hg hin
    rcases SymExpr.atoms_recurrence_minus hx with rfl | hx | hx | rfl
    · exact fun hmem => L.not_back_of_front (Or.inl hmem) hback
    · exact hstart ha x hx
    · exact hnext he x hx
    · exact hself
  · -- a phi is not computed alike in every round
    have hpure := (hrep.inv hv.once hin hi hdest).1
    rw [Instr.isPure, hop] at hpure
    cases hpure

end Recurrence

/-- The property that passes on. The run in it does not matter: that all atoms are settled does not depend on it. -/
theorem hereditary_unvaried (hentry : f.phisAt f.entry = []) : f.Hereditary fun v e =>
    f.Describes .word [] 0 v e ∧ (p.Shared f l₁ l₂ v → ∀ x ∈ e.atoms, f.Unvaried l₁ x) := by
  have hdescribes := Subject.hereditary_describes (g := .word) hv hentry (f.exactUpTo_word [] 0)
  have hfst : ∀ {o e}, OperandHas (fun v e => f.Describes .word [] 0 v e ∧
      (p.Shared f l₁ l₂ v → ∀ x ∈ e.atoms, f.Unvaried l₁ x)) o e → OperandHas (f.Describes .word [] 0) o e :=
    fun h => h.mono fun _ _ h => h.1
  constructor
  case leaf =>
    refine fun v => ⟨hdescribes.leaf v, fun hshared x hx => ?_⟩
    obtain rfl : x = .value v := by simpa [SymExpr.atoms] using hx
    exact L.unvaried_of_shared_value hv hshared
  case unknown => exact fun v => ⟨hdescribes.unknown v, fun _ x hx => by cases hx⟩
  case assign =>
    intro b n v o c e hi hb h
    refine ⟨hdescribes.assign hi hb (hfst h), fun hshared => unvaried_of_operand (fun u hu => ?_) h⟩
    exact L.shared_of_read hv hscalars hshared hi rfl rfl hb (by simp [Instr.mem_reads, Instr.operands, Op.operands, hu])
  case neg =>
    intro b n v o c e hi hb h
    refine ⟨hdescribes.neg hi hb (hfst h), fun hshared x hx => unvaried_of_operand (fun u hu => ?_) h x ?_⟩
    · exact L.shared_of_read hv hscalars hshared hi rfl rfl hb (by simp [Instr.mem_reads, Instr.operands, Op.operands, hu])
    · exact (SymExpr.negate_exactIn (SymExpr.isKnown_of_mem_atoms hx)).2.2 hx
  case binary =>
    intro b n op v x y c join e₁ e₂ hi hb hop h₁ h₂
    refine ⟨hdescribes.binary hi hb hop (hfst h₁) (hfst h₂), fun hshared z hz => ?_⟩
    have hread : ∀ u, .var u ∈ [x, y] → p.Shared f l₁ l₂ u := fun u hu =>
      L.shared_of_read hv hscalars hshared hi rfl rfl hb ((Instr.mem_reads _).mpr hu)
    rcases List.mem_append.mp (BinOp.atoms_join hop hz) with hz | hz
    · exact unvaried_of_operand (fun u hu => hread u (by simp [hu])) h₁ z hz
    · exact unvaried_of_operand (fun u hu => hread u (by simp [hu])) h₂ z hz
  case recurrence =>
    intro l n i v sources start next a e hl hi hop hsplit ha he hka hks hsteady
    have hd := hdescribes.recurrence hl hi hop hsplit (hfst ha) (hfst he) hka hks hsteady
    exact ⟨hd, L.unvaried_of_recurrence hv hscalars hentry hl hi hop hsplit hd (fun h => unvaried_of_operand h ha)
      fun h => unvaried_of_operand h he⟩

/-- **The careful expression of a shared value** has nothing of the first loop in it but what every round computes alike. -/
theorem unvaried_of_shared (hall : ∀ b, b < f.blocks.length → f.Live b) (hentry : f.phisAt f.entry = []) {e : SymExpr}
    (he : (Snapshot.of f).carefulExprOf? v = some e) (hshared : p.Shared f l₁ l₂ v) : ∀ x ∈ e.atoms, f.Unvaried l₁ x :=
  (Subject.of_carefulExprOf? (L.hereditary_unvaried hv hscalars hentry) hv.once hall he).2 hshared

end Scalars

end Layout

end SsaFusion
