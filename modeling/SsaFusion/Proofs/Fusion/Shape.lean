import SsaFusion.Proofs.Data.Except
import SsaFusion.Proofs.Fusion.Gates

/-!
# What a plan records

A plan is only made if every check passes. `PlanOf` collects what the checks say of the pair, without the order in which
they are made: the shapes of both loops (`ShapeOf`), the shape of the guards (`GuardsOf`) and the conditions on code that
moves (`CodeOk`). That operands are available at their new places is taken up where they are placed.
-/

namespace SsaFusion

/-! ## Checks that pass -/

theorem Snapshot.eq_some_of_need {α : Type} {o : Option α} {why : Obstacle} {a : α} (h : need o why = .ok a) :
    o = some a := by
  cases o with
  | none => cases h
  | some b => exact congrArg some (Except.ok.inj h)

/-! ## Loops -/

/-- What the shape of a loop records. -/
structure ShapeOf (f : Func) (l : Loop) (sh : LoopShape) : Prop where
  header : sh.header = l.header
  latch : l.latch = some sh.latch
  preheader : l.preheader = some sh.preheader
  exitEdge : l.exitEdge = some (sh.latch, sh.exit)
  latchTerm : ∃ c t e, f.term? sh.latch = some (.branch c t e) ∧
    ((t = sh.header ∧ e = sh.exit) ∨ (t = sh.exit ∧ e = sh.header))
  induction : ∃ i ∈ f.phisAt sh.header, i.dest? = some sh.induction
  straight : sh.body = none → sh.latch ≠ sh.header → f.term? sh.header = some (.jump sh.latch)
  body : ∀ first last, sh.body = some (first, last) → sh.latch ≠ sh.header ∧
    f.term? sh.header = some (.jump first) ∧ first ≠ sh.latch ∧ (f.predecessors sh.latch).filter l.contains = [last]

namespace Snapshot

variable {s : Snapshot} {l : Loop} {latch preheader exit : BlockId}

theorem frameOf_spec (h : s.frameOf l = .ok (latch, preheader, exit)) :
    l.latch = some latch ∧ l.preheader = some preheader ∧ l.exitEdge = some (latch, exit) ∧
      ∃ c t e, s.func.term? latch = some (.branch c t e) ∧
        ((t = l.header ∧ e = exit) ∨ (t = exit ∧ e = l.header)) := by
  unfold frameOf at h
  obtain ⟨t, ht, h⟩ := bind_eq_ok h
  obtain ⟨p, hp, h⟩ := bind_eq_ok h
  obtain ⟨x, hx, h⟩ := bind_eq_ok h
  have ht := eq_some_of_need ht
  have hp := eq_some_of_need hp
  have hx := eq_some_of_need hx
  split at h
  · cases h
  · rename_i hexiting
    rw [not_not] at hexiting
    split at h
    · rename_i c a b hterm
      split at h
      · rename_i hcond
        cases h
        refine ⟨ht, hp, ?_, c, a, b, hterm, hcond⟩
        obtain ⟨e, he, hfst⟩ := Option.map_eq_some_iff.mp hexiting
        obtain ⟨e', he', hsnd⟩ := Option.map_eq_some_iff.mp hx
        cases he.symm.trans he'
        rw [he, ← hfst, ← hsnd]
      · cases h
    · cases h

theorem bodyOf_spec {body : Option (BlockId × BlockId)} (h : s.bodyOf l latch = .ok body) :
    (body = none → latch ≠ l.header → s.func.term? l.header = some (.jump latch)) ∧
      ∀ first last, body = some (first, last) → latch ≠ l.header ∧ s.func.term? l.header = some (.jump first) ∧
        first ≠ latch ∧ (s.func.predecessors latch).filter l.contains = [last] := by
  unfold bodyOf at h
  split at h
  · rename_i e
    cases h
    exact ⟨fun _ hne => absurd e.symm hne, by simp⟩
  · rename_i hne
    split at h
    · rename_i first hterm
      split at h
      · rename_i e
        cases h
        exact ⟨fun _ _ => e ▸ hterm, by simp⟩
      · rename_i hfirst
        split at h
        · rename_i last hlast
          cases h
          refine ⟨by simp, ?_⟩
          rintro a b ⟨⟩
          exact ⟨Ne.symm hne, hterm, hfirst, hlast⟩
        · cases h
    · cases h

/-- An induction variable is a phi of the header. -/
theorem inductionVariable_mem {memo memo' : Memo} {v : ValueId}
    (h : s.inductionVariable l memo = some (some v, memo')) : ∃ i ∈ s.func.phisAt l.header, i.dest? = some v := by
  have found : ∀ (t : ExitTest) (vs : List ValueId) (memo : Memo),
      s.firstDriver l t vs memo = some (some v, memo') → v ∈ vs := by
    intro t vs
    induction vs with
    | nil => exact fun memo h => by cases h
    | cons w rest ih =>
      intro memo h
      obtain ⟨e, memo₁, _, h⟩ := Query.bind_eq_some_iff.mp h
      split at h
      · cases h
        exact List.mem_cons_self ..
      · exact List.mem_cons_of_mem _ (ih _ h)
  obtain ⟨test?, memo₁, _, h⟩ := Query.bind_eq_some_iff.mp h
  cases test? with
  | none => cases h
  | some t => exact List.mem_filterMap.mp (found _ _ _ h)

theorem shapeOf_spec {sh : LoopShape} (h : (s.shapeOf l).Gives sh) : ShapeOf s.func l sh := by
  unfold shapeOf at h
  obtain ⟨⟨latch, preheader, exit⟩, hframe, h⟩ := h.bind_inv
  obtain ⟨hlatch, hpre, hexit, hterm⟩ := frameOf_spec hframe.check_inv
  obtain ⟨iv?, hiv, h⟩ := h.bind_inv
  obtain ⟨memo, memo', hiv⟩ := hiv.lift_inv.ask_inv
  obtain ⟨iv, hsome, h⟩ := h.bind_inv
  rw [eq_some_of_need hsome.check_inv] at hiv
  obtain ⟨body, hbody, h⟩ := h.bind_inv
  obtain ⟨hnone, hbody⟩ := bodyOf_spec hbody.check_inv
  cases h.pure_inv
  exact ⟨rfl, hlatch, hpre, hexit, hterm, inductionVariable_mem hiv, hnone, hbody⟩

end Snapshot

/-! ## Guards -/

/-- What the shape of the guards of a pair records. -/
structure GuardsOf (f : Func) (l₁ l₂ : LoopShape) (g : GuardShape) : Prop where
  first : (f.term? g.first).bind (Terminator.other? l₁.preheader) = some g.second
  second : (f.term? g.second).bind (Terminator.other? l₂.preheader) = some g.join
  into : ∀ a, g.second ∈ f.successors a ↔ a = l₁.exit ∨ a = g.first
  exit₁ : f.term? l₁.exit = some (.jump g.second)
  into₁ : ∀ a, l₁.exit ∈ f.successors a ↔ a = l₁.latch
  exit₂ : f.term? l₂.exit = some (.jump g.join)
  into₂ : ∀ a, l₂.exit ∈ f.successors a ↔ a = l₂.latch

namespace Snapshot

variable {s : Snapshot} {l₁ l₂ : LoopShape} {guard₁ guard₂ : BlockId} {g : GuardShape}

theorem isDedicated_spec {exit latch next : BlockId} (h : s.isDedicated exit latch next = true) :
    s.func.term? exit = some (.jump next) ∧ ∀ a, exit ∈ s.func.successors a ↔ a = latch := by
  unfold isDedicated at h
  rw [Bool.and_eq_true, beq_iff_eq, beq_iff_eq] at h
  refine ⟨h.2, fun a => ?_⟩
  rw [← Func.mem_predecessors, h.1, List.mem_singleton]

theorem guardShapeOf_spec (h : s.guardShapeOf l₁ l₂ guard₁ guard₂ = .ok g) :
    g.first = guard₁ ∧ g.second = guard₂ ∧ GuardsOf s.func l₁ l₂ g ∧
      ∀ phi ∈ (s.func.phisAt g.second).filterMap Instr.dest?, s.guardPhiEscapes g phi = false := by
  unfold guardShapeOf at h
  simp only at h
  split at h
  · cases h
  · rename_i hskip
    obtain ⟨join, hjoin, h⟩ := bind_eq_ok h
    split at h
    · cases h
    · rename_i hpreds
      split at h
      · cases h
      · rename_i hded₁
        split at h
        · cases h
        · rename_i hded₂
          split at h
          · cases h
          · rename_i hfind
            cases h
            obtain ⟨ht₁, hp₁⟩ := isDedicated_spec (by simpa using hded₁)
            obtain ⟨ht₂, hp₂⟩ := isDedicated_spec (by simpa using hded₂)
            rw [not_not] at hskip hpreds
            refine ⟨rfl, rfl, ⟨hskip, eq_some_of_need hjoin, fun a => ?_, ht₁, hp₁, ht₂, hp₂⟩, fun phi hphi => ?_⟩
            · rw [← Func.mem_predecessors, hpreds, mem_ascending]
              simp
            · simpa using List.find?_eq_none.mp hfind phi hphi

end Snapshot

/-! ## Code that moves -/

/-- The conditions on phis and code of a pair. -/
structure CodeOk (s : Snapshot) (l₁ l₂ : LoopShape) (guards : Option GuardShape) : Prop where
  preheader₂ : s.withoutPhis l₂.preheader = .ok ()
  latch₁ : l₁.latch ≠ l₁.header → s.withoutPhis l₁.latch = .ok ()
  latch₂ : l₂.latch ≠ l₂.header → s.withoutPhis l₂.latch = .ok ()
  movePreheader : s.movable l₂.preheader = .ok ()
  moveGuard : ∀ g, guards = some g → s.movable g.second = .ok () ∧ s.movable l₁.exit = .ok ()
  body : ∀ entry last, l₂.body = some (entry, last) → l₁.header ≠ l₁.latch ∧ s.withoutPhis entry = .ok () ∧
    s.movable l₂.header = .ok () ∧ s.movable l₁.latch = .ok ()

namespace Snapshot

variable {s : Snapshot} {l₁ l₂ : LoopShape} {guards : Option GuardShape}

theorem phisAt_of_withoutPhis {b : BlockId} (h : s.withoutPhis b = .ok ()) : s.func.phisAt b = [] := by
  unfold withoutPhis at h
  split at h
  · exact List.isEmpty_iff.mp ‹_›
  · cases h

theorem checkCode_spec (h : s.checkCode l₁ l₂ guards = .ok ()) : CodeOk s l₁ l₂ guards := by
  unfold checkCode at h
  obtain ⟨_, hpre, h⟩ := bind_eq_ok h
  obtain ⟨hlatch₁, h⟩ := ite_bind_eq_ok h
  obtain ⟨hlatch₂, h⟩ := ite_bind_eq_ok h
  obtain ⟨_, hmove, h⟩ := bind_eq_ok h
  have hguard : ∀ g, guards = some g → s.movable g.second = .ok () ∧ s.movable l₁.exit = .ok () := by
    rintro g rfl
    obtain ⟨_, hg₁, h⟩ := bind_eq_ok h
    obtain ⟨_, hg₂, _⟩ := bind_eq_ok h
    exact ⟨hg₁, hg₂⟩
  refine ⟨hpre, hlatch₁, hlatch₂, hmove, hguard, fun entry last hbody => ?_⟩
  simp only [hbody] at h
  have hlast : ¬l₁.header = l₁.latch ∧ (do
      s.withoutPhis entry
      s.movable l₂.header
      s.movable l₁.latch) = .ok () := by
    cases guards with
    | none => exact error_bind_eq_ok h
    | some g =>
      obtain ⟨_, _, h⟩ := bind_eq_ok h
      obtain ⟨_, _, h⟩ := bind_eq_ok h
      exact error_bind_eq_ok h
  obtain ⟨hne, h⟩ := hlast
  obtain ⟨_, h₁, h⟩ := bind_eq_ok h
  obtain ⟨_, h₂, h⟩ := bind_eq_ok h
  exact ⟨hne, h₁, h₂, h⟩

end Snapshot

/-! ## The plan -/

/-- What a plan of a pair records. -/
structure PlanOf (s : Snapshot) (l₁ l₂ : Loop) (p : Plan) : Prop where
  first : ShapeOf s.func l₁ p.first
  second : ShapeOf s.func l₂ p.second
  unguarded : p.guards = none → l₁.guard = none ∨ l₂.guard = none
  guarded : ∀ g, p.guards = some g → l₁.guard = some g.first ∧ l₂.guard = some g.second ∧
    GuardsOf s.func p.first p.second g ∧
    ∀ phi ∈ (s.func.phisAt g.second).filterMap Instr.dest?, s.guardPhiEscapes g phi = false
  code : CodeOk s p.first p.second p.guards
  available : s.checkAvailability p l₂ l₁ = .ok ()

/-- A check after the last question asks nothing more. -/
theorem Planning.check_grows {e : Except Obstacle Unit} {p : Plan} :
    (Planning.check e >>= fun _ => (pure p : Planning Plan)).run.Grows := by
  intro memo a memo' h
  cases e <;> cases h <;> exact .refl memo

theorem Snapshot.plan_within {s : Snapshot} {l₁ l₂ : Loop} {p : Plan} {known : Memo}
    (h : (s.plan l₁ l₂ .legal).GivesWithin known p) :
    PlanOf s l₁ l₂ p ∧ (Inquiry.ask (s.sameInduction p.first p.second)).GivesWithin known p.unify := by
  unfold plan at h
  obtain ⟨sh₁, h₁, h, -⟩ := h.bind_inv
  obtain ⟨sh₂, h₂, h, -⟩ := h.bind_inv
  have hs₁ := shapeOf_spec h₁
  have hs₂ := shapeOf_spec h₂
  split at h
  · rename_i g₁ g₂ hg₁ hg₂
    obtain ⟨guards, hguards, h, -⟩ := h.bind_inv
    obtain ⟨_, hcode, h, -⟩ := h.bind_inv
    obtain ⟨unify, -, h, hunify⟩ := h.bind_inv
    obtain ⟨_, hav, h, -⟩ := h.bind_inv
    cases h.gives.pure_inv
    have hguards := hguards.check_inv
    refine ⟨⟨hs₁, hs₂, ?_, ?_, checkCode_spec hcode.check_inv, hav.check_inv⟩, (hunify Planning.check_grows).lift_inv⟩
    · rintro rfl
      cases hshape : s.guardShapeOf sh₁ sh₂ g₁ g₂ <;> simp [hshape, Except.map] at hguards
    · rintro g rfl
      cases hshape : s.guardShapeOf sh₁ sh₂ g₁ g₂ with
      | error e => simp [hshape, Except.map] at hguards
      | ok g' =>
        obtain rfl : g' = g := by simpa [hshape, Except.map] using hguards
        obtain ⟨e₁, e₂, hspec⟩ := guardShapeOf_spec hshape
        exact ⟨e₁ ▸ hg₁, e₂ ▸ hg₂, hspec⟩
  · rename_i hnone
    obtain ⟨guards, hguards, h, -⟩ := h.bind_inv
    obtain ⟨_, hcode, h, -⟩ := h.bind_inv
    obtain ⟨unify, -, h, hunify⟩ := h.bind_inv
    obtain ⟨_, hav, h, -⟩ := h.bind_inv
    cases h.gives.pure_inv
    obtain rfl := hguards.pure_inv
    refine ⟨⟨hs₁, hs₂, fun _ => ?_, by simp, checkCode_spec hcode.check_inv, hav.check_inv⟩,
      (hunify Planning.check_grows).lift_inv⟩
    cases hg₁ : l₁.guard with
    | none => exact Or.inl rfl
    | some g₁ =>
      cases hg₂ : l₂.guard with
      | none => exact Or.inr rfl
      | some g₂ => exact absurd hg₂ (hnone g₁ g₂ hg₁)

theorem Snapshot.plan_spec {s : Snapshot} {l₁ l₂ : Loop} {p : Plan} (h : (s.plan l₁ l₂ .legal).Gives p) :
    PlanOf s l₁ l₂ p := by
  obtain ⟨known, h⟩ := Inquiry.Gives.within h
  exact (plan_within h).1

end SsaFusion
