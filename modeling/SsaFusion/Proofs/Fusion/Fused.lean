import Mathlib.Data.List.Find
import Mathlib.Data.List.Perm.Subperm
import SsaFusion.Proofs.Fusion.Sides
import SsaFusion.Proofs.Machine.Following
import SsaFusion.Proofs.Sweep.Contents

/-!
# The blocks of the fused function

A block that is left after fusion holds the code of one or two blocks of the pair, as far as its results are read, and the phis
of one or two blocks (`block?_apply`, `phi_apply`). Its terminator goes where the old one goes, apart from the edges that were
cut (`redirect`). A phi receives on an edge what the old phi received on the edge that the new one stands for.
-/

namespace SsaFusion

open Plan (phiDests bodyDests)

/-! ## Terminators and operands -/

theorem Terminator.mapTargets_mapTargets (g h : BlockId → BlockId) (t : Terminator) :
    (t.mapTargets g).mapTargets h = t.mapTargets (h ∘ g) := by
  cases t <;> rfl

theorem Op.mapOperands_id (op : Op) : op.mapOperands id = op := by
  cases op with
  | phi d sources => exact congrArg (Op.phi d) (List.map_id sources)
  | _ => rfl

theorem Terminator.mapOperands_id (t : Terminator) : t.mapOperands id = t := by
  cases t with
  | ret vs => exact congrArg Terminator.ret (List.map_id vs)
  | _ => rfl

namespace Plan

variable (p : Plan)

theorem standInOperand_eq_through : p.standInOperand = Operand.through (Snapshot.standIn p) := by
  funext o
  cases o <;> rfl

theorem renamed_eq (i : Instr) : p.renamed i = { i with op := i.op.mapOperands (Operand.through (Snapshot.standIn p)) } := by
  rw [← p.standInOperand_eq_through, renamed]
  cases h : p.unify with
  | true => rw [← p.rename_eq h]; rfl
  | false => rw [p.standInOperand_eq_id h, Op.mapOperands_id]; rfl

theorem renamedTerm_eq (t : Terminator) : p.renamedTerm t = t.mapOperands (Operand.through (Snapshot.standIn p)) := by
  rw [← p.standInOperand_eq_through, renamedTerm]
  cases h : p.unify with
  | true => rw [← p.rename_eq h]; rfl
  | false => rw [p.standInOperand_eq_id h, Terminator.mapOperands_id]; rfl

/-- The way past both loops, from the first guard to the join. -/
def guardDetours : List (BlockId × BlockId × BlockId) := p.guards.elim [] fun g => [(g.first, g.second, g.join)]

/-- The way through the second body, between the first body and the first latch. -/
def bodyDetours : List (BlockId × BlockId × BlockId) :=
  p.second.body.elim [] fun body => [(p.first.last, p.first.latch, body.1), (body.2, p.second.latch, p.first.latch)]

/-- The edges that fusion bends, with their old and their new ends, in the order in which they are bent. -/
def detours : List (BlockId × BlockId × BlockId) :=
  p.guardDetours ++ (p.first.latch, p.first.exit, p.second.exit) :: p.bodyDetours

theorem mem_guardDetours {d : BlockId × BlockId × BlockId} :
    d ∈ p.guardDetours ↔ ∃ g, p.guards = some g ∧ d = (g.first, g.second, g.join) := by
  unfold guardDetours
  cases p.guards <;> simp

theorem mem_bodyDetours {d : BlockId × BlockId × BlockId} :
    d ∈ p.bodyDetours ↔ ∃ first last, p.second.body = some (first, last) ∧
      (d = (p.first.last, p.first.latch, first) ∨ d = (last, p.second.latch, p.first.latch)) := by
  unfold bodyDetours
  rcases p.second.body with _ | ⟨first, last⟩
  · simp
  · simp only [Option.elim_some, List.mem_pair, Option.some.injEq, Prod.mk.injEq]
    constructor
    · exact fun h => ⟨first, last, ⟨rfl, rfl⟩, h⟩
    · rintro ⟨_, _, ⟨rfl, rfl⟩, h⟩
      exact h

/-- The end of an edge after some detours. -/
def detoured (b : BlockId) (ds : List (BlockId × BlockId × BlockId)) (c : BlockId) : BlockId :=
  ds.foldl (fun c d => if b = d.1 ∧ c = d.2.1 then d.2.2 else c) c

/-- Where an edge goes after fusion. -/
def redirect (b c : BlockId) : BlockId := detoured b p.detours c

theorem redirected_eq (b : BlockId) (t : Terminator) :
    p.redirected b t = (t.mapOperands (Operand.through (Snapshot.standIn p))).mapTargets (p.redirect b) := by
  have hite : ∀ (q : Prop) [Decidable q] (old new : BlockId) (t : Terminator),
      (if q then t.retarget old new else t) = t.mapTargets fun c => if q ∧ c = old then new else c := by
    intro q _ old new t
    split
    · rename_i hq
      simp only [Terminator.retarget, hq, true_and]
    · rename_i hq
      simp only [hq, false_and, if_false]
      cases t <;> rfl
  rw [← p.renamedTerm_eq]
  unfold redirected redirect detours guardDetours bodyDetours
  cases p.guards <;> cases p.second.body <;> simp only [hite, Terminator.mapTargets_mapTargets] <;> rfl

variable {p} {b c e : BlockId} {ds ds' : List (BlockId × BlockId × BlockId)}

theorem detoured_same (h : ∀ d ∈ ds, ¬(b = d.1 ∧ c = d.2.1)) : detoured b ds c = c := by
  induction ds with
  | nil => rfl
  | cons d ds ih =>
    rw [List.forall_mem_cons] at h
    rw [detoured, List.foldl_cons, if_neg h.1]
    exact ih h.2

theorem detoured_bent (h : ∀ d ∈ ds, ¬(b = d.1 ∧ c = d.2.1)) (h' : ∀ d ∈ ds', ¬(b = d.1 ∧ e = d.2.1)) :
    detoured b (ds ++ (b, c, e) :: ds') c = e := by
  have hsame : ds.foldl (fun c d => if b = d.1 ∧ c = d.2.1 then d.2.2 else c) c = c := detoured_same h
  rw [detoured, List.foldl_append, hsame, List.foldl_cons, if_pos ⟨rfl, rfl⟩]
  exact detoured_same h'

theorem redirect_of_not_cut (h : ¬p.Cut b c) : p.redirect b c = c := by
  refine detoured_same fun d hd => ?_
  rintro ⟨rfl, rfl⟩
  refine h ?_
  rcases List.mem_append.mp hd with hd | hd
  · obtain ⟨g, hg, rfl⟩ := p.mem_guardDetours.mp hd
    exact Or.inr (Or.inl ⟨g, hg, rfl, rfl⟩)
  · rcases List.mem_cons.mp hd with rfl | hd
    · exact Or.inl ⟨rfl, rfl⟩
    · obtain ⟨first, last, hb, rfl | rfl⟩ := p.mem_bodyDetours.mp hd
      · exact Or.inr (Or.inr ⟨first, last, hb, Or.inl ⟨rfl, rfl⟩⟩)
      · exact Or.inr (Or.inr ⟨first, last, hb, Or.inr ⟨rfl, rfl⟩⟩)

end Plan

namespace Layout

variable {f : Func} {l₁ l₂ : Loop} {p : Plan} {a b c d : BlockId} {v : ValueId} (L : Layout f l₁ l₂ p)

/-! ## Edges that are cut -/

section Redirect

include L

theorem redirect_latch₁ : p.redirect p.first.latch p.first.exit = p.second.exit := by
  refine Plan.detoured_bent (fun d hd => ?_) fun d hd => ?_
  · obtain ⟨g, hg, rfl⟩ := p.mem_guardDetours.mp hd
    rintro ⟨h : p.first.latch = g.first, -⟩
    exact L.guard₁_out₁ hg (h ▸ L.latch₁_mem)
  · obtain ⟨first, last, -, rfl | rfl⟩ := p.mem_bodyDetours.mp hd
    · rintro ⟨-, h : p.second.exit = p.first.latch⟩
      exact L.exit₂_out.1 (h ▸ L.latch₁_mem)
    · rintro ⟨-, h : p.second.exit = p.second.latch⟩
      exact L.exit₂_out.2 (h ▸ L.latch₂_mem)

theorem redirect_guard₁ {g : GuardShape} (hg : p.guards = some g) : p.redirect g.first g.second = g.join := by
  unfold Plan.redirect Plan.detours Plan.guardDetours
  rw [hg]
  rw [Option.elim_some, List.singleton_append, ← List.nil_append ((g.first, _) :: _)]
  refine Plan.detoured_bent (fun d hd => by cases hd) fun d hd => ?_
  rcases List.mem_cons.mp hd with rfl | hd
  · rintro ⟨h : g.first = p.first.latch, -⟩
    exact L.guard₁_out₁ hg (h ▸ L.latch₁_mem)
  · obtain ⟨first, last, -, rfl | rfl⟩ := p.mem_bodyDetours.mp hd
    · rintro ⟨-, h : g.join = p.first.latch⟩
      exact L.join_out₁ hg (h ▸ L.latch₁_mem)
    · rintro ⟨-, h : g.join = p.second.latch⟩
      exact L.join_out₂ hg (h ▸ L.latch₂_mem)

/-- The detours in front of those through the second body are no edges to a latch. -/
theorem not_detoured (hc : c ∈ l₁.blocks ∨ c ∈ l₂.blocks) :
    ∀ d ∈ p.guardDetours ++ [(p.first.latch, p.first.exit, p.second.exit)], ¬(b = d.1 ∧ c = d.2.1) := by
  intro d hd
  rcases List.mem_append.mp hd with hd | hd
  · obtain ⟨g, hg, rfl⟩ := p.mem_guardDetours.mp hd
    rintro ⟨-, h : c = g.second⟩
    exact hc.elim (h ▸ L.guard₂_out₁ hg) (h ▸ L.guard₂_out₂ hg)
  · obtain rfl := List.mem_singleton.mp hd
    rintro ⟨-, h : c = p.first.exit⟩
    exact hc.elim (h ▸ L.exit₁_out.1) (h ▸ L.exit₁_out.2)

section Body

variable {first last : BlockId} (hbody : p.second.body = some (first, last))

include hbody

omit L in
theorem detours_eq : p.detours = p.guardDetours ++ [(p.first.latch, p.first.exit, p.second.exit)] ++
    [(p.first.last, p.first.latch, first), (last, p.second.latch, p.first.latch)] := by
  unfold Plan.detours Plan.bodyDetours
  rw [hbody, List.append_assoc]
  rfl

theorem redirect_last₁ : p.redirect p.first.last p.first.latch = first := by
  rw [Plan.redirect, detours_eq hbody]
  refine Plan.detoured_bent (L.not_detoured (Or.inl L.latch₁_mem)) fun d hd => ?_
  obtain rfl := List.mem_singleton.mp hd
  rintro ⟨-, h : first = p.second.latch⟩
  exact (L.inner_first hbody).2.2 h

theorem redirect_last : p.redirect last p.second.latch = p.first.latch := by
  rw [Plan.redirect, detours_eq hbody, List.append_cons _ (p.first.last, p.first.latch, first)]
  refine Plan.detoured_bent (fun d hd => ?_) fun d hd => by cases hd
  rcases List.mem_append.mp hd with hd | hd
  · exact L.not_detoured (Or.inr L.latch₂_mem) d hd
  · obtain rfl := List.mem_singleton.mp hd
    rintro ⟨-, h : p.second.latch = p.first.latch⟩
    exact L.disjoint L.latch₁_mem (h ▸ L.latch₂_mem)

end Body

end Redirect

/-! ## Where the contents come from -/

section Sources

include L

theorem bodySources_eq (hc : ¬p.Removed c) : p.bodySources c =
    (p.guards.elim [] fun _ => if c = p.second.exit then [p.first.exit] else []) ++ [c] ++
      (p.guards.elim [] fun g => if c = g.first then [g.second] else []) ++
      (if c = p.first.preheader then [p.second.preheader] else []) ++
      (if c = p.headerHome then [p.second.header] else []) ++
      if c = p.first.latch ∧ p.second.latch ≠ p.second.header then [p.second.latch] else [] := by
  have hself : c = p.bodyHome c := L.eq_bodyHome.mpr hc
  have hcons : ∀ d ds, (d :: ds).filter (fun d => c = p.bodyHome d) =
      (if c = p.bodyHome d then [d] else []) ++ ds.filter (fun d => c = p.bodyHome d) := by
    intro d ds
    by_cases h : c = p.bodyHome d <;> simp [h]
  have hlatch : (if p.second.latch = p.second.header then [] else [p.second.latch]).filter (fun d => c = p.bodyHome d) =
      if c = p.first.latch ∧ p.second.latch ≠ p.second.header then [p.second.latch] else [] := by
    by_cases h : p.second.latch = p.second.header
    · simp [h]
    · rw [if_neg h, hcons, L.bodyHome_latch₂, List.filter_nil, List.append_nil]
      exact if_congr (iff_of_eq (by simp [h])) rfl rfl
  unfold Plan.bodySources
  rw [List.filter_append, List.filter_append, hlatch]
  cases hg : p.guards with
  | none =>
    simp only [Option.elim_none, List.nil_append, hcons, ← hself, if_true, List.filter_nil, List.append_nil,
      L.bodyHome_preheader₂, bodyHome_header₂, List.append_assoc]
  | some g =>
    simp only [Option.elim_some, List.filter_append, hcons, ← hself, if_true, List.filter_nil, List.append_nil,
      L.bodyHome_preheader₂, bodyHome_header₂, L.bodyHome_exit₁ hg, L.bodyHome_guard₂ hg, List.append_assoc]

/-- A block that takes over no code has its own. -/
theorem bodySources_unguarded (hc : ¬p.Removed c) (hguards : ∀ g, p.guards = some g → c ≠ g.first ∧ c ≠ p.second.exit) :
    p.bodySources c = [c] ++ (if c = p.first.preheader then [p.second.preheader] else []) ++
      (if c = p.headerHome then [p.second.header] else []) ++
      if c = p.first.latch ∧ p.second.latch ≠ p.second.header then [p.second.latch] else [] := by
  rw [L.bodySources_eq hc]
  cases hg : p.guards with
  | none => simp
  | some g => simp [hguards g hg]

theorem bodySources_plain (hc : ¬p.Removed c) (hpre : c ≠ p.first.preheader) (hhome : c ≠ p.headerHome)
    (hlatch : c ≠ p.first.latch) (hguards : ∀ g, p.guards = some g → c ≠ g.first ∧ c ≠ p.second.exit) :
    p.bodySources c = [c] := by
  simp [L.bodySources_unguarded hc hguards, hpre, hhome, hlatch]

theorem headerHome_mem : p.headerHome ∈ l₁.blocks := by
  rcases headerHome_eq (p := p) with h | h
  · exact h ▸ L.header₁_mem
  · exact h ▸ L.latch₁_mem

theorem bodySources_preheader₁ : p.bodySources p.first.preheader = [p.first.preheader, p.second.preheader] := by
  have hout : ∀ {b}, b ∈ l₁.blocks → p.first.preheader ≠ b := fun hb h => L.preheader₁_out.1 (h ▸ hb)
  rw [L.bodySources_unguarded (L.kept_of_early (Or.inr (Or.inl rfl))) fun g hg => ?_]
  · simp [hout L.headerHome_mem, hout L.latch₁_mem]
  · have h := L.apart hg (b := p.first.preheader) (by simp)
    exact ⟨h.1, h.2.2.2.2⟩

section First

variable (hc : c ∈ l₁.blocks)

include hc

theorem bodySources_first : p.bodySources c = [c] ++ (if c = p.headerHome then [p.second.header] else []) ++
    if c = p.first.latch ∧ p.second.latch ≠ p.second.header then [p.second.latch] else [] := by
  have hpre : c ≠ p.first.preheader := fun h => L.preheader₁_out.1 (h ▸ hc)
  rw [L.bodySources_unguarded (L.kept_of_mem₁ hc) fun g hg => ?_]
  · simp [hpre]
  · have h := L.apart hg (Or.inl hc)
    exact ⟨h.1, h.2.2.2.2⟩

theorem bodySources_first_plain (hhome : c ≠ p.headerHome) (hlatch : c ≠ p.first.latch) : p.bodySources c = [c] := by
  simp [L.bodySources_first hc, hhome, hlatch]

end First

section Body

variable {first last : BlockId} (hbody : p.second.body = some (first, last))

include hbody

omit L in
theorem headerHome_of_body : p.headerHome = p.first.header := by rw [Plan.headerHome, hbody]; rfl

theorem bodySources_header₁ : p.bodySources p.first.header = [p.first.header, p.second.header] := by
  simp [L.bodySources_first L.header₁_mem, headerHome_of_body hbody, (L.latch_ne_header hbody).1.symm]

theorem bodySources_latch₁ : p.bodySources p.first.latch = [p.first.latch, p.second.latch] := by
  simp [L.bodySources_first L.latch₁_mem, headerHome_of_body hbody, (L.latch_ne_header hbody).1, (L.latch_ne_header hbody).2.1]

end Body

theorem bodySources_latch₁_straight (hbody : p.second.body = none) : p.bodySources p.first.latch =
    [p.first.latch, p.second.header] ++ if p.second.latch ≠ p.second.header then [p.second.latch] else [] := by
  have hhome : p.headerHome = p.first.latch := by rw [Plan.headerHome, hbody]; rfl
  simp [L.bodySources_first L.latch₁_mem, hhome]

theorem bodySources_inner (hc : p.Inner l₂ c) : p.bodySources c = [c] := by
  have hout : ∀ {b}, b ∈ l₁.blocks → c ≠ b := fun hb h => L.disjoint hb (h ▸ hc.1)
  refine L.bodySources_plain (L.not_removed_of_inner hc) (fun h => L.preheader₁_out.2 (h ▸ hc.1)) (hout L.headerHome_mem)
    (hout L.latch₁_mem) fun g hg => ?_
  have h := L.apart hg (Or.inr (Or.inl hc.1))
  exact ⟨h.1, h.2.2.2.2⟩

section Guarded

variable {g : GuardShape} (hg : p.guards = some g)

include hg

theorem bodySources_guard₁ : p.bodySources g.first = [g.first, g.second] := by
  have hn := L.nodup_frame hg
  simp only [List.nodup_cons, List.mem_cons, not_or] at hn
  have hout : ∀ {b}, b ∈ l₁.blocks → g.first ≠ b := fun hb h => L.guard₁_out₁ hg (h ▸ hb)
  rw [L.bodySources_eq (L.kept_of_early (Or.inr (Or.inr ⟨g, hg, rfl⟩))), hg]
  simp [hn.1, hout L.headerHome_mem, hout L.latch₁_mem]

theorem bodySources_exit₂ : p.bodySources p.second.exit = [p.first.exit, p.second.exit] := by
  have hn := L.nodup_frame hg
  simp only [List.nodup_cons, List.mem_cons, not_or] at hn
  have hout : ∀ {b}, b ∈ l₁.blocks → p.second.exit ≠ b := fun hb h => L.exit₂_out.1 (h ▸ hb)
  rw [L.bodySources_eq L.exit₂_kept, hg]
  simp [Ne.symm hn.1.2.2.2.2.1, Ne.symm hn.2.1.2.2.2.1, hout L.headerHome_mem, hout L.latch₁_mem]

end Guarded

theorem phiHome_inv (h : c = p.phiHome b) : b = c ∨ b = p.second.header ∧ c = p.first.header ∨
    ∃ g, p.guards = some g ∧ (b = g.second ∧ c = g.join ∨ b = p.first.exit ∧ c = p.second.exit) := by
  rcases p.phiHome_cases b with hb | rfl | ⟨g, hg, rfl | rfl⟩
  · exact Or.inl (hb ▸ h.symm)
  · exact Or.inr (Or.inl ⟨rfl, h.trans phiHome_header₂⟩)
  · exact Or.inr (Or.inr ⟨g, hg, Or.inl ⟨rfl, h.trans (L.phiHome_guard₂ hg)⟩⟩)
  · exact Or.inr (Or.inr ⟨g, hg, Or.inr ⟨rfl, h.trans (L.phiHome_exit₁ hg)⟩⟩)

end Sources

/-! ## What a block holds -/

end Layout

namespace Plan

variable (p : Plan) (f : Func)

/-- The number of a block after fusion. -/
def label (b : BlockId) : BlockId := (p.splice f).label b

/-- Whether an instruction is left after fusion. -/
def keeps (i : Instr) : Bool := Func.isLive (p.apply f).reads i

/-- The values that matter after fusion. -/
def Wanted (v : ValueId) : Prop := v ∈ (p.apply f).reads ∧ p.unifies v = false

/-- What is left of the code of a block. -/
def code (b : BlockId) : List Instr :=
  ((f.bodyAt b).filter (p.keeps f)).map fun i => { i with op := i.op.mapOperands (Operand.through (Snapshot.standIn p)) }

variable {p f}

theorem keeps_renamed (i : Instr) : p.keeps f (p.renamed i) = p.keeps f i := by
  have hnop : ((p.renamed i).op != .nop) = (i.op != .nop) := by
    rw [renamed_eq]
    cases i.op <;> rfl
  rw [keeps, keeps, Func.isLive, Func.isLive, hasEffect_renamed, dest?_renamed, hnop]

theorem filter_bodyPart (b : BlockId) : (p.bodyPart f b).filter (p.keeps f) = p.code f b := by
  rw [bodyPart, List.filter_map, code]
  refine congr (congrArg List.map (funext p.renamed_eq)) (List.filter_congr fun i _ => keeps_renamed i)

end Plan

namespace Layout

variable {f : Func} {l₁ l₂ : Loop} {p : Plan} {a b c d : BlockId} {v : ValueId} (L : Layout f l₁ l₂ p) (hv : f.Valid)

include L hv

theorem kept_splice (hc : (p.splice f).Live c) : c ∈ (p.splice f).kept :=
  Func.mem_kept_of_live (fun _ h => L.lt_of_live_splice hv h) hc

theorem isPhi_bodyAt_splice : ∀ i ∈ (p.splice f).bodyAt c, i.isPhi = false := by
  intro i hi
  rw [L.bodyAt_splice hv] at hi
  obtain ⟨d, _, hi⟩ := List.mem_flatMap.mp hi
  exact isPhi_of_mem_bodyPart hv hi

/-- What is left of a block after fusion. -/
theorem block?_apply (hc : (p.splice f).Live c) {t : Terminator} (ht : f.term? c = some t) :
    ∃ blk, (p.apply f).block? (p.label f c) = some blk ∧ blk.body = (p.bodySources c).flatMap (p.code f) ∧
      blk.term = (t.mapOperands (Operand.through (Snapshot.standIn p))).mapTargets (p.label f ∘ p.redirect c) := by
  have hkept := L.kept_splice hv hc
  have hbody := Func.bodyAt_sweep hkept (L.isPhi_bodyAt_splice hv)
  have hterm := Func.term?_sweep hkept
  rw [term?_splice, ht, Option.map_some, Option.map_some, p.redirected_eq, Terminator.mapTargets_mapTargets] at hterm
  obtain ⟨blk, hblk, hblk'⟩ := Option.map_eq_some_iff.mp hterm
  refine ⟨blk, hblk, ?_, hblk'⟩
  rw [Func.bodyAt, hblk, L.bodyAt_splice hv, List.filter_flatMap] at hbody
  exact hbody.trans (congrArg (List.flatMap · (p.bodySources c)) (funext fun b => Plan.filter_bodyPart b))

/-- What the code that is left reads is wanted. -/
theorem wanted_of_code (hd : f.Live d) {i : Instr} (hi : i ∈ f.bodyAt d) (hk : p.keeps f i = true) :
    ∀ v ∈ i.reads, p.Wanted f (Snapshot.standIn p v) := by
  intro v hr
  refine ⟨?_, L.unifies_standIn hv v⟩
  have hc := L.live_bodyHome.mpr hd
  have hmem : p.renamed i ∈ (p.apply f).bodyAt (p.label f (p.bodyHome d)) := by
    rw [Plan.apply, Plan.label, Func.bodyAt_sweep (L.kept_splice hv hc) (L.isPhi_bodyAt_splice hv), L.bodyAt_splice hv]
    refine List.mem_filter.mpr ⟨List.mem_flatMap.mpr ⟨d, p.mem_bodySources.mpr rfl, List.mem_map.mpr ⟨i, hi, rfl⟩⟩, ?_⟩
    exact (Plan.keeps_renamed i).trans hk
  refine Func.mem_reads_of_instr (Func.mem_instrsOf_of_body hmem) ?_
  rw [p.reads_renamed]
  exact List.mem_map.mpr ⟨v, hr, rfl⟩

omit L hv in
/-- Code that is not left computes nothing that is wanted. -/
theorem not_wanted_of_dropped {i : Instr} (hk : p.keeps f i = false) :
    i.hasEffect = false ∧ ∀ d, i.dest? = some d → ¬p.Wanted f d := by
  obtain ⟨heffect, hd⟩ := Func.dropped_of_not_isLive hk
  exact ⟨heffect, fun d h hw => hd d h hw.1⟩

theorem wanted_of_term (hc : (p.splice f).Live c) {t : Terminator} (ht : f.term? c = some t) :
    ∀ v ∈ valuesOf t.operands, p.Wanted f (Snapshot.standIn p v) := by
  intro v hr
  refine ⟨?_, L.unifies_standIn hv v⟩
  obtain ⟨blk, hblk, -, hterm⟩ := L.block?_apply hv hc ht
  refine Func.mem_reads_of_term (Func.term?_eq _ hblk) ?_
  rw [hterm, Terminator.operands_mapTargets, Terminator.operands_mapOperands, ← p.standInOperand_eq_through, p.valuesOf_standIn]
  exact List.mem_map.mpr ⟨v, hr, rfl⟩

/-! ## Phis -/

theorem phisAt_apply (hc : (p.splice f).Live c) : (p.apply f).phisAt (p.label f c) =
    (((p.splice f).phisAt c).map (p.splice f).renumbered).filter (p.keeps f) :=
  Func.phisAt_sweep (L.kept_splice hv hc) (L.isPhi_bodyAt_splice hv)

/-- A phi that is wanted is left. -/
theorem mem_phis_apply (hc : (p.splice f).Live (p.phiHome b)) (h : v ∈ phiDests f b) (hw : p.Wanted f v) :
    v ∈ phiDests (p.apply f) (p.label f (p.phiHome b)) := by
  obtain ⟨i, hi, hd⟩ := List.mem_filterMap.mp ((L.mem_phiDests_splice hv).mpr ⟨b, h, hw.2, rfl⟩)
  refine List.mem_filterMap.mpr ⟨(p.splice f).renumbered i, ?_, by simpa using hd⟩
  rw [L.phisAt_apply hv hc]
  exact List.mem_filter.mpr ⟨List.mem_map.mpr ⟨i, hi, rfl⟩, Func.isLive_of_read (by simpa using hd) hw.1⟩

omit L hv in
theorem sourceOperand_plain {q : BlockId × Operand} (h : ∀ g, p.guards = some g → ¬(b = g.join ∧ q.1 = g.second)) :
    p.sourceOperand f b q = p.standInOperand q.2 := by
  unfold Plan.sourceOperand
  cases hg : p.guards with
  | none => rfl
  | some g => exact if_neg (h g hg)

section Guarded

variable {g : GuardShape} (hg : p.guards = some g)

include hg

omit L hv in
theorem sourceOperand_join (o : Operand) : p.sourceOperand f g.join (g.second, o) = ((p.standInOperand o).var?.bind
    (Func.incomingFrom g.first ((f.phisAt g.second).map p.renamed)).get?).getD (p.standInOperand o) := by
  unfold Plan.sourceOperand
  rw [hg]
  exact if_pos ⟨rfl, rfl⟩

omit L hv hg in
/-- What the join takes over from a phi of the second guard is what the phi receives from the first. -/
theorem incoming_eq {w : ValueId} {o : Operand}
    (h : (Func.incomingFrom g.first ((f.phisAt g.second).map p.renamed)).get? w = some o) :
    ∃ i ∈ f.phisAt g.second, ∃ sources q, i.op = .phi w sources ∧ sources.find? (·.1 == g.first) = some q ∧
      o = p.standInOperand q.2 := by
  have hmem := (Table.mem_or_get?_of_insertAll h).resolve_right (by simp)
  obtain ⟨_, hmem, he⟩ := List.mem_filterMap.mp hmem
  obtain ⟨i, hi, rfl⟩ := List.mem_map.mp hmem
  simp only [Option.bind_eq_bind, Option.bind_eq_some_iff, p.sources?_renamed, Option.map_eq_some_iff, Option.pure_def,
    Option.some.injEq, Prod.mk.injEq] at he
  obtain ⟨w', hw', _, ⟨sources, hs, rfl⟩, q', hfind, rfl, rfl⟩ := he
  rw [List.find?_map] at hfind
  obtain ⟨q, hq, rfl⟩ := Option.map_eq_some_iff.mp hfind
  obtain ⟨d, sources', hop⟩ := Instr.eq_phi_of_isPhi (f.isPhi_of_mem_phisAt hi)
  rw [Plan.dest?_renamed, Instr.dest?, hop] at hw'
  rw [Instr.sources?, hop] at hs
  cases hw'
  cases hs
  exact ⟨i, hi, _, q, hop, hq, rfl⟩

end Guarded

/-- Nothing that is replaced is received. -/
theorem unifies_sourceOperand {q : BlockId × Operand} {w : ValueId} (h : p.sourceOperand f b q = .var w) :
    p.unifies w = false := by
  have hplain : ∀ o, p.standInOperand o = .var w → p.unifies w = false := by
    intro o ho
    obtain ⟨u, -, rfl⟩ := Plan.eq_var_of_standInOperand ho
    exact L.unifies_standIn hv u
  by_cases hjoin : ∀ g, p.guards = some g → ¬(b = g.join ∧ q.1 = g.second)
  · rw [sourceOperand_plain hjoin] at h
    exact hplain _ h
  · push Not at hjoin
    obtain ⟨g, hg, rfl, hq⟩ := hjoin
    obtain ⟨a, o⟩ := q
    cases hq
    rw [sourceOperand_join hg] at h
    cases hlook : (p.standInOperand o).var?.bind (Func.incomingFrom g.first ((f.phisAt g.second).map p.renamed)).get? with
    | none =>
      rw [hlook] at h
      exact hplain _ h
    | some o' =>
      rw [hlook] at h
      obtain ⟨u, -, hu⟩ := Option.bind_eq_some_iff.mp hlook
      obtain ⟨_, _, _, q, -, -, rfl⟩ := incoming_eq hu
      exact hplain _ h

/-- A phi that is left receives on an edge what the old phi received on the edge that it stands for. -/
theorem phi_apply (hc : (p.splice f).Live c) {i : Instr} (hi : i ∈ (p.apply f).phisAt (p.label f c)) {v : ValueId}
    {sources : List (BlockId × Operand)} (hop : i.op = .phi v sources) :
    ∃ b j old, c = p.phiHome b ∧ f.Live b ∧ j ∈ f.phisAt b ∧ j.op = .phi v old ∧ p.Wanted f v ∧
      ∀ a q, (p.splice f).Live (p.sourceName a) → b ∈ f.successors a → old.find? (·.1 == a) = some q →
        ∃ x, sources.find? (·.1 == p.label f (p.sourceName a)) = some (x, p.sourceOperand f b q) ∧
          Machine.Readable (p.Wanted f) (p.sourceOperand f b q) := by
  have hi' := hi
  rw [L.phisAt_apply hv hc] at hi'
  obtain ⟨hmem, hlive⟩ := List.mem_filter.mp hi'
  obtain ⟨i₀, hi₀, rfl⟩ := List.mem_map.mp hmem
  have hphi₀ := (p.splice f).isPhi_of_mem_phisAt hi₀
  obtain ⟨ss, hss⟩ := i₀.isPhi_iff_sources.mp hphi₀
  obtain ⟨b, j, old, hb, hblive, hj, hstay, hdest, hold, rfl⟩ :=
    L.phi_splice hv hc (Func.mem_instrsOf_of_phi hi₀) hss
  obtain ⟨v', old', hop'⟩ := Instr.eq_phi_of_isPhi (f.isPhi_of_mem_phisAt hj)
  have hv' : v' = v := by
    have h : ((p.splice f).renumbered i₀).dest? = some v := by rw [Instr.dest?, hop]; rfl
    rw [Func.dest?_renumbered, hdest, Instr.dest?, hop'] at h
    exact Option.some.inj h
  have hold' : old' = old := by
    rw [Instr.sources?, hop'] at hold
    exact Option.some.inj hold
  subst hv' hold'
  have hsources : sources = ((old'.map fun q => (p.sourceName q.1, p.sourceOperand f b q)).filter
      fun q => !(p.splice f).unreachableBlocks.contains q.1).map fun q => ((p.splice f).label q.1, q.2) := by
    have h : ((p.splice f).renumbered i₀).sources? = some sources := by rw [Instr.sources?, hop]; rfl
    rw [Func.renumbered, Instr.sources?_mapSourceBlocks, Instr.sources?_keepSources, hss] at h
    exact (Option.some.inj h).symm
  have hok := hv.phis b hblive j (Func.mem_instrsOf_of_phi hj) old' (by rw [Instr.sources?, hop']; rfl)
  have hwanted : p.Wanted f v' := by
    refine ⟨Func.read_of_isLive hlive ?_ (by rw [Instr.dest?, hop]; rfl), ?_⟩
    · rw [Instr.hasEffect, hop]
      rfl
    · simpa [Plan.stays, Instr.dest?, hop', Op.dest?] using hstay
  refine ⟨b, j, old', hb, hblive, hj, hop', hwanted, fun a q ha hab hq => ?_⟩
  have hknown : ∀ s ∈ old'.map fun q => (p.sourceName q.1, p.sourceOperand f b q), s.1 < (p.splice f).blocks.length := by
    intro s hs
    obtain ⟨q, hq, rfl⟩ := List.mem_map.mp hs
    rw [length_splice]
    exact L.sourceName_lt hv (hv.source_lt hblive (Func.mem_instrsOf_of_phi hj) (by rw [Instr.sources?, hop']; rfl) q hq)
  have hfind := Func.find?_relabel hknown (L.kept_splice hv ha)
  rw [← hsources, List.find?_map] at hfind
  have hcongr : old'.find? ((fun x => x.1 == p.sourceName a) ∘ fun q => (p.sourceName q.1, p.sourceOperand f b q)) =
      old'.find? (·.1 == a) := by
    refine List.find?_congr fun q hq => ?_
    rw [Bool.eq_iff_iff, Function.comp_apply, beq_iff_eq, beq_iff_eq]
    exact ⟨L.sourceName_inj (hok.edges q hq) hab, congrArg p.sourceName⟩
  rw [hcongr, hq] at hfind
  obtain ⟨s, hs, hs₂⟩ := Option.map_eq_some_iff.mp hfind
  have hs' : s = (s.1, p.sourceOperand f b q) := Prod.ext rfl hs₂
  refine ⟨s.1, hs' ▸ hs, fun w hw => ⟨?_, ?_⟩⟩
  · refine Func.mem_reads_of_instr (Func.mem_instrsOf_of_phi hi) ?_
    rw [Instr.mem_reads_of_sources _ (show ((p.splice f).renumbered i₀).sources? = some sources by rw [Instr.sources?, hop]; rfl)]
    exact ⟨s, List.mem_of_find?_eq_some hs, hs₂.trans (Operand.eq_var_of_var? hw)⟩
  · exact L.unifies_sourceOperand hv (Operand.eq_var_of_var? hw)

/-- There are no more phis than in the blocks with wanted phis. -/
theorem length_phis_apply (hfused : (p.apply f).Valid) (hc : (p.splice f).Live c) {bs : List BlockId}
    (hbs : ∀ b v, c = p.phiHome b → v ∈ phiDests f b → p.Wanted f v → b ∈ bs) :
    ((p.apply f).phisAt (p.label f c)).length ≤ (bs.flatMap f.phisAt).length := by
  have hdests : ∀ {g : Func} {b : BlockId}, (phiDests g b).length = (g.phisAt b).length := by
    intro g b
    rw [phiDests, List.length_filterMap_eq_countP, List.countP_eq_length]
    intro i hi
    obtain ⟨d, hd⟩ := i.dest?_isSome_of_isPhi (g.isPhi_of_mem_phisAt hi)
    rw [hd]
    rfl
  have hsub : phiDests (p.apply f) (p.label f c) ⊆ bs.flatMap (phiDests f) := by
    intro v hmem
    obtain ⟨i, hi, hd⟩ := List.mem_filterMap.mp hmem
    obtain ⟨v', sources, hop⟩ := Instr.eq_phi_of_isPhi ((p.apply f).isPhi_of_mem_phisAt hi)
    rw [Instr.dest?, hop] at hd
    cases hd
    obtain ⟨b, j, old, hb, -, hj, hop', hw, -⟩ := L.phi_apply hv hc hi hop
    have hmem' : v ∈ phiDests f b := List.mem_filterMap.mpr ⟨j, hj, by rw [Instr.dest?, hop']; rfl⟩
    exact List.mem_flatMap.mpr ⟨b, hbs b v hb hmem' hw, hmem'⟩
  have hn : (phiDests (p.apply f) (p.label f c)).Nodup := Func.nodup_phiDests hfused.once _
  have hle := (List.Nodup.subperm hn hsub).length_le
  rw [hdests, List.length_flatMap] at hle
  rw [List.length_flatMap]
  simpa only [hdests] using hle

end Layout

end SsaFusion
