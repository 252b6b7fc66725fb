import SsaFusion.Proofs.Flow.Nesting
import SsaFusion.Proofs.Fusion.Growth

/-!
# What the gates promise

A question may be asked with any memo table; `Inquiry.Gives` and `Planning.Gives` say that some table leads to an answer,
which is all that the shape of a pair depends on. What the expressions of a pair are also depends on the table:
`Inquiry.GivesWithin` and `Planning.GivesWithin` say that a given table holds all that was known in the end.

A legal pair has passed every gate (`passes_of_legal`), and the gates
about control flow then say how its loops lie: both are guarded or neither is, the first of two unguarded loops leaves to
the preheader of the second, and the way into the first loop dominates the way into the second.
-/

namespace SsaFusion

/-! ## Answers -/

namespace Inquiry

variable {α β : Type}

/-- The answer from a memo table, unless finding it goes on for ever. -/
def answer? (q : Inquiry α) (memo : Memo) : Option α := (q.run memo).result?.map Prod.fst

/-- Some memo table leads to an answer. -/
def Gives (q : Inquiry α) (a : α) : Prop := ∃ memo, q.answer? memo = some a

theorem answer?_eq_some_iff {q : Inquiry α} {memo : Memo} {a : α} :
    q.answer? memo = some a ↔ ∃ memo', (q.run memo).result? = some (a, memo') := by
  simp [answer?]

theorem Gives.bind_inv {q : Inquiry α} {k : α → Inquiry β} {b : β} (h : (q >>= k).Gives b) :
    ∃ a, q.Gives a ∧ (k a).Gives b := by
  obtain ⟨memo, h⟩ := h
  obtain ⟨memo', h⟩ := answer?_eq_some_iff.mp h
  obtain ⟨a, memo₁, hq, hk⟩ := bind_eq_some_iff.mp h
  exact ⟨a, ⟨memo, answer?_eq_some_iff.mpr ⟨memo₁, hq⟩⟩, memo₁, answer?_eq_some_iff.mpr ⟨memo', hk⟩⟩

theorem Gives.pure_inv {a b : α} (h : (pure a : Inquiry α).Gives b) : a = b := by
  obtain ⟨memo, h⟩ := h
  exact Option.some.inj h

theorem Gives.take_inv {t : Traced α} {a : α} (h : (Inquiry.take t).Gives a) : t.value = a := by
  obtain ⟨memo, h⟩ := h
  exact Option.some.inj h

theorem Gives.ask_inv {q : Query α} {a : α} (h : (Inquiry.ask q).Gives a) : ∃ memo memo', q memo = some (a, memo') := by
  obtain ⟨memo, h⟩ := h
  exact ⟨memo, answer?_eq_some_iff.mp h⟩

/-- Some memo table leads to an answer, and what is known then is in a given table. -/
def GivesWithin (known : Memo) (q : Inquiry α) (a : α) : Prop :=
  ∃ memo memo', (q.run memo).result? = some (a, memo') ∧ memo'.Extends known

variable {known : Memo}

theorem Gives.within {q : Inquiry α} {a : α} (h : q.Gives a) : ∃ known, q.GivesWithin known a := by
  obtain ⟨memo, h⟩ := h
  obtain ⟨memo', h⟩ := answer?_eq_some_iff.mp h
  exact ⟨memo', memo, memo', h, .refl memo'⟩

theorem GivesWithin.gives {q : Inquiry α} {a : α} (h : q.GivesWithin known a) : q.Gives a := by
  obtain ⟨memo, memo', h, -⟩ := h
  exact ⟨memo, answer?_eq_some_iff.mpr ⟨memo', h⟩⟩

theorem GivesWithin.bind_inv {q : Inquiry α} {k : α → Inquiry β} {b : β} (h : (q >>= k).GivesWithin known b) :
    ∃ a, (k a).GivesWithin known b ∧ ((k a).Grows → q.GivesWithin known a) := by
  obtain ⟨memo, memo', h, hext⟩ := h
  obtain ⟨a, memo₁, hq, hk⟩ := bind_eq_some_iff.mp h
  exact ⟨a, ⟨memo₁, memo', hk, hext⟩, fun hgrows => ⟨memo, memo₁, hq, (hgrows memo₁ b memo' hk).trans hext⟩⟩

theorem GivesWithin.ask_inv {q : Query α} {a : α} (h : (Inquiry.ask q).GivesWithin known a) :
    ∃ memo memo', q memo = some (a, memo') ∧ memo'.Extends known := h

end Inquiry

/-- Some memo table leads to a plan, or a part of one, without an obstacle. -/
def Planning.Gives {α : Type} (q : Planning α) (a : α) : Prop := Inquiry.Gives q.run (.ok a)

namespace Planning

variable {α β : Type}

theorem Gives.bind_inv {q : Planning α} {k : α → Planning β} {b : β} (h : (q >>= k).Gives b) :
    ∃ a, q.Gives a ∧ (k a).Gives b := by
  obtain ⟨e, he, hk⟩ := Inquiry.Gives.bind_inv (q := q.run) h
  cases e with
  | error o => cases Inquiry.Gives.pure_inv hk
  | ok a => exact ⟨a, he, hk⟩

theorem Gives.pure_inv {a b : α} (h : (pure a : Planning α).Gives b) : a = b :=
  Except.ok.inj (Inquiry.Gives.pure_inv h)

theorem Gives.check_inv {e : Except Obstacle α} {a : α} (h : (Planning.check e).Gives a) : e = .ok a :=
  Inquiry.Gives.pure_inv h

theorem Gives.lift_inv {q : Inquiry α} {a : α} (h : Gives (ExceptT.lift q) a) : q.Gives a := by
  obtain ⟨memo, h⟩ := h
  obtain ⟨memo', h⟩ := Inquiry.answer?_eq_some_iff.mp h
  change ((q.run memo) >>= fun p => pure (Except.ok p.1, p.2)).result? = _ at h
  obtain ⟨p, hq, hp⟩ := Option.bind_eq_some_iff.mp ((Attempt.result?_bind _ _).symm.trans h)
  cases hp
  exact ⟨memo, Inquiry.answer?_eq_some_iff.mpr ⟨p.2, hq⟩⟩

/-- Some memo table leads to a plan, or a part of one, and what is known then is in a given table. -/
def GivesWithin (known : Memo) (q : Planning α) (a : α) : Prop := Inquiry.GivesWithin known q.run (.ok a)

variable {known : Memo}

theorem GivesWithin.gives {q : Planning α} {a : α} (h : q.GivesWithin known a) : q.Gives a := Inquiry.GivesWithin.gives h

theorem GivesWithin.bind_inv {q : Planning α} {k : α → Planning β} {b : β} (h : (q >>= k).GivesWithin known b) :
    ∃ a, q.Gives a ∧ (k a).GivesWithin known b ∧ ((k a).run.Grows → q.GivesWithin known a) := by
  obtain ⟨memo, memo', h, hext⟩ := h
  obtain ⟨e, memo₁, hq, hk⟩ := Inquiry.bind_eq_some_iff.mp h
  cases e with
  | error o => cases hk
  | ok a =>
    refine ⟨a, ⟨memo, Inquiry.answer?_eq_some_iff.mpr ⟨memo₁, hq⟩⟩, ⟨memo₁, memo', hk, hext⟩, fun hgrows => ?_⟩
    exact ⟨memo, memo₁, hq, (hgrows memo₁ (.ok b) memo' hk).trans hext⟩

theorem GivesWithin.lift_inv {q : Inquiry α} {a : α} (h : GivesWithin known (ExceptT.lift q) a) : q.GivesWithin known a := by
  obtain ⟨memo, memo', h, hext⟩ := h
  change ((q.run memo) >>= fun p => pure (Except.ok p.1, p.2)).result? = _ at h
  obtain ⟨p, hq, hp⟩ := Option.bind_eq_some_iff.mp ((Attempt.result?_bind _ _).symm.trans h)
  cases hp
  exact ⟨memo, p.2, hq, hext⟩

end Planning

/-! ## Gates -/

namespace Snapshot

variable {s : Snapshot} {l₁ l₂ : Loop} {pair : Nat}

theorem passes_of_tryGates {known : Memo} {gates : List Gate} (h : (s.tryGates l₁ l₂ pair gates).GivesWithin known .legal) :
    ∀ g ∈ gates, (g.passes s l₁ l₂).GivesWithin known true := by
  induction gates with
  | nil => simp
  | cons g rest ih =>
    obtain ⟨passed, hk, hg⟩ := h.bind_inv
    cases passed with
    | false =>
      obtain ⟨_, hk, _⟩ := Inquiry.GivesWithin.bind_inv (β := Legality) hk
      cases hk.gives.pure_inv
    | true =>
      obtain ⟨_, hrest, _⟩ := Inquiry.GivesWithin.bind_inv (β := Legality) hk
      refine List.forall_mem_cons.mpr ⟨hg ?_, ih hrest⟩
      exact .bind (.take _) fun _ => s.tryGates_grows l₁ l₂ pair rest

/-- A legal pair has passed all gates, and what they were told is known in the end. -/
theorem passes_within_of_legal {known : Memo} (h : (s.legality l₁ l₂ pair).GivesWithin known .legal) (g : Gate) :
    (g.passes s l₁ l₂).GivesWithin known true := by
  obtain ⟨_, h, _⟩ := h.bind_inv
  exact passes_of_tryGates h g (by cases g <;> decide)

/-- A legal pair has passed all gates. -/
theorem passes_of_legal (h : (s.legality l₁ l₂ pair).Gives .legal) (g : Gate) : (g.passes s l₁ l₂).Gives true := by
  obtain ⟨known, h⟩ := h.within
  exact (passes_within_of_legal h g).gives

theorem isGuarded_eq_of_legal (h : (s.legality l₁ l₂ pair).Gives .legal) : l₁.isGuarded = l₂.isGuarded := by
  have := (passes_of_legal h .guardParity).pure_inv
  simpa using this

/-- What an adjacent pair has between its loops. -/
theorem glue_of_isAdjacent (h : (s.isAdjacent l₁ l₂).value = true) : ∃ blocks, s.glue? l₁ l₂ = some blocks := by
  unfold isAdjacent at h
  split at h
  · cases h
  · rename_i blocks hglue
    exact ⟨blocks, hglue⟩

/-- Between unguarded loops there is one block, the exit of the first and the preheader of the second. -/
theorem exit_eq_preheader_of_isAdjacent (h : (s.isAdjacent l₁ l₂).value = true) (hg₁ : l₁.guard = none)
    (hg₂ : l₂.guard = none) : ∃ b, l₁.exit = some b ∧ l₂.preheader = some b := by
  obtain ⟨blocks, hglue⟩ := glue_of_isAdjacent h
  unfold glue? at hglue
  obtain ⟨x, hx, hglue⟩ := Option.bind_eq_some_iff.mp hglue
  obtain ⟨q, hq, hglue⟩ := Option.bind_eq_some_iff.mp hglue
  rw [hg₁, hg₂] at hglue
  simp only at hglue
  split at hglue
  · rename_i e
    exact ⟨x, hx, e ▸ hq⟩
  · cases hglue

/-- The way into the first of two equivalent loops dominates the way into the second, which post-dominates it. -/
theorem gateway_of_isEquivalent (h : (s.isEquivalent l₁ l₂).value = true) :
    s.dom.dominates l₁.gateway l₂.gateway = true ∧ s.postDom.dominates l₂.gateway l₁.gateway = true := by
  unfold isEquivalent at h
  split at h
  · cases h
  · simpa using h

theorem exit_eq_preheader_of_legal (h : (s.legality l₁ l₂ pair).Gives .legal) (hg : l₁.guard = none) :
    l₂.guard = none ∧ ∃ b, l₁.exit = some b ∧ l₂.preheader = some b := by
  have hg₂ : l₂.guard = none := by
    have := isGuarded_eq_of_legal h
    simpa [Loop.isGuarded, hg] using this.symm
  exact ⟨hg₂, exit_eq_preheader_of_isAdjacent (passes_of_legal h .adjacency).take_inv hg hg₂⟩

theorem gateway_of_legal (h : (s.legality l₁ l₂ pair).Gives .legal) :
    s.dom.dominates l₁.gateway l₂.gateway = true ∧ s.postDom.dominates l₂.gateway l₁.gateway = true :=
  gateway_of_isEquivalent (passes_of_legal h .controlFlow).take_inv

end Snapshot

/-- The block that stands for entering a loop is live. -/
theorem IsLoop.live_gateway {f : Func} {l : Loop} (hl : IsLoop f l) : f.Live l.gateway := by
  unfold Loop.gateway
  cases hg : l.guard with
  | none => exact hl.live
  | some g =>
    obtain ⟨_, _, _, _, _, hlive, _⟩ := hl.guard_spec hg
    exact hlive

theorem dominates_gateway_of_legal {f : Func} {l₁ l₂ : Loop} {pair : Nat} (hl₂ : IsLoop f l₂)
    (h : ((Snapshot.of f).legality l₁ l₂ pair).Gives .legal) : f.Dominates l₁.gateway l₂.gateway :=
  (Func.dominators_dominates_of_live hl₂.live_gateway).mp (Snapshot.gateway_of_legal h).1

end SsaFusion
