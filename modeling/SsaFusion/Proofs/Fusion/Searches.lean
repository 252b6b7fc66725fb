import SsaFusion.Proofs.Fusion.Gates
import SsaFusion.Proofs.Fusion.Recursions

/-!
# Searches that end

What fusion asks about a function comes down to three recursions on definitions. Where none of them goes round in a circle
(`Acyclic`), every question has an answer from every memo table, so that every gate is decided (`Gate.passes_ends`), every
plan is made or meets an obstacle (`plan_ends`), and the search for a pair to fuse ends (`fuseFirst_ends`). Valid functions
without unreachable blocks are of that kind (`acyclic_of_valid`).
-/

namespace SsaFusion

/-! ## Questions that always end -/

/-- A question has an answer from every memo table. -/
def Query.Ends {α : Type} (q : Query α) : Prop := ∀ memo, ∃ a memo', q memo = some (a, memo')

namespace Query

variable {α β : Type}

theorem Ends.pure (a : α) : (pure a : Query α).Ends := fun memo => ⟨a, memo, rfl⟩

theorem Ends.bind {q : Query α} {k : α → Query β} (hq : q.Ends) (hk : ∀ a, (k a).Ends) : (q >>= k).Ends := by
  intro memo
  obtain ⟨a, memo₁, ha⟩ := hq memo
  obtain ⟨b, memo₂, hb⟩ := hk a memo₁
  exact ⟨b, memo₂, bind_eq_some_iff.mpr ⟨a, memo₁, ha, hb⟩⟩

theorem Ends.lift {o : Option α} {a : α} (h : o = some a) : Ends (liftM o : Query α) := by
  subst h
  exact fun memo => ⟨a, memo, rfl⟩

end Query

/-- An inquiry has an answer from every memo table. -/
def Inquiry.Ends {α : Type} (q : Inquiry α) : Prop := ∀ memo, ∃ a memo', (q.run memo).result? = some (a, memo')

namespace Inquiry

variable {α β : Type}

theorem Ends.pure (a : α) : (pure a : Inquiry α).Ends := fun memo => ⟨a, memo, rfl⟩

theorem Ends.bind {q : Inquiry α} {k : α → Inquiry β} (hq : q.Ends) (hk : ∀ a, (k a).Ends) : (q >>= k).Ends := by
  intro memo
  obtain ⟨a, memo₁, ha⟩ := hq memo
  obtain ⟨b, memo₂, hb⟩ := hk a memo₁
  exact ⟨b, memo₂, bind_eq_some_iff.mpr ⟨a, memo₁, ha, hb⟩⟩

theorem Ends.take (t : Traced α) : (Inquiry.take t).Ends := fun memo => ⟨t.value, memo, rfl⟩

theorem Ends.ask {q : Query α} (h : q.Ends) : (Inquiry.ask q).Ends := h

theorem Ends.note (level : Level) (message : String) : (Inquiry.note level message).Ends := .take _

theorem Ends.answers {q : Inquiry α} (h : q.Ends) (memo : Memo) : ∃ a, q.answer? memo = some a := by
  obtain ⟨a, memo', ha⟩ := h memo
  exact ⟨a, answer?_eq_some_iff.mpr ⟨memo', ha⟩⟩

end Inquiry

/-- Planning comes to a plan or an obstacle from every memo table. -/
def Planning.Ends {α : Type} (q : Planning α) : Prop := Inquiry.Ends q.run

namespace Planning

variable {α β : Type}

theorem Ends.pure (a : α) : (pure a : Planning α).Ends := Inquiry.Ends.pure _

theorem Ends.bind {q : Planning α} {k : α → Planning β} (hq : q.Ends) (hk : ∀ a, (k a).Ends) : (q >>= k).Ends := by
  refine Inquiry.Ends.bind (q := q.run) hq fun r => ?_
  cases r with
  | error o => exact .pure _
  | ok a => exact hk a

theorem Ends.check (e : Except Obstacle α) : (Planning.check e).Ends := Inquiry.Ends.pure _

theorem Ends.lift {q : Inquiry α} (h : q.Ends) : Ends (ExceptT.lift q) := by
  intro memo
  obtain ⟨a, memo', ha⟩ := h memo
  refine ⟨.ok a, memo', ?_⟩
  change ((q.run memo) >>= fun p => Pure.pure (Except.ok p.1, p.2)).result? = _
  rw [Attempt.result?_bind, ha]
  rfl

end Planning

/-! ## Functions without circles -/

namespace Snapshot

/-- Nothing is defined by way of itself: neither an expression nor an address, and no repeated value of a loop. -/
structure Acyclic (s : Snapshot) : Prop where
  exprs : ∀ v, Grounded s.direct v
  addresses : ∀ v, Grounded s.sources v
  repeated : ∀ l v, Grounded (s.inputs l) v

theorem acyclic_of_valid {f : Func} (hf : f.Valid) (hall : ∀ b, b < f.blocks.length → f.Live b) :
    (Snapshot.of f).Acyclic where
  exprs := Subject.grounded_direct hf hall
  addresses := grounded_of_operands hf hall fun _ _ => operand_of_mem_sources
  repeated _ := grounded_of_operands hf hall fun _ _ => operand_of_mem_inputs

namespace Acyclic

variable {s : Snapshot} (h : s.Acyclic) {l l₁ l₂ : Loop}

include h

/-! ### Trip counts -/

theorem exprOf_ends (o : Operand) : (s.exprOf o).Ends := by
  intro memo
  obtain ⟨e, memo', ha⟩ := Subject.exists_answer h.exprs o memo
  exact ⟨e, memo', Subject.exprOf_eq_some_iff.mpr ha⟩

theorem exitTest_ends : (s.exitTest l).Ends := by
  unfold Subject.exitTest
  split
  · exact .pure _
  · exact .bind (h.exprOf_ends _) fun _ => .bind (h.exprOf_ends _) fun _ => .pure _

theorem tripCount_ends : (s.tripCount l).Ends := .bind h.exitTest_ends fun _ => .pure _

theorem firstDriver_ends (t : ExitTest) (vs : List ValueId) : (s.firstDriver l t vs).Ends := by
  induction vs with
  | nil => exact .pure _
  | cons v rest ih =>
    refine .bind (h.exprOf_ends _) fun e => ?_
    split
    · exact .pure _
    · exact ih

theorem inductionVariable_ends : (s.inductionVariable l).Ends := by
  refine .bind h.exitTest_ends fun test? => ?_
  cases test? with
  | none => exact .pure _
  | some t => exact h.firstDriver_ends t _

/-! ### Dependences -/

theorem locationOf_ends (address : Operand) : (s.locationOf address).Ends := by
  cases address with
  | lit _ => exact .pure _
  | var v =>
    intro memo
    obtain ⟨r, memo', hr⟩ :=
      exists_follows (fun o memo => Subject.exists_answer h.exprs o memo) (h.addresses v) (.const 0) memo
    exact ⟨r, memo', locationOf_eq_some_iff.mpr hr⟩

theorem accessesAt_ends (b : BlockId) (is : List (Instr × Nat)) : (s.accessesAt b is).Ends := by
  induction is with
  | nil => exact .pure _
  | cons p rest ih =>
    rw [accessesAt]
    split
    · exact ih
    · exact .bind (h.locationOf_ends _) fun _ => .bind ih fun _ => .pure _

theorem accessesOf_ends (blocks : List BlockId) : (s.accessesOf blocks).Ends := by
  induction blocks with
  | nil => exact .pure _
  | cons b rest ih => exact .bind (h.accessesAt_ends b _) fun _ => .bind ih fun _ => .pure _

theorem memoryDependences_ends : (s.memoryDependences l₁ l₂).Ends :=
  .bind (h.accessesOf_ends _) fun _ => .bind (h.accessesOf_ends _) fun _ => .pure _

theorem exists_scalarHazards (l₁ : Loop) (reads : List (Position × ValueId)) : ∃ found, s.scalarHazards l₁ reads = some found := by
  induction reads with
  | nil => exact ⟨[], rfl⟩
  | cons read rest ih =>
    obtain ⟨repeated, hrep⟩ := exists_decides (h.repeated l₁ read.2)
    obtain ⟨others, hothers⟩ := ih
    simp only [scalarHazards, isRepeated?_eq_some_iff.mpr hrep, hothers]
    exact ⟨_, rfl⟩

theorem dependences_ends : (s.dependences l₁ l₂).Ends := by
  obtain ⟨found, hfound⟩ := h.exists_scalarHazards l₁ (s.readsOf l₂)
  exact .bind h.memoryDependences_ends fun _ => .bind (.lift hfound) fun _ => .pure _

/-! ### The search -/

theorem passes_ends (g : Gate) : (g.passes s l₁ l₂).Ends := by
  cases g with
  | guardParity => exact .pure _
  | adjacency | controlFlow => exact .take _
  | tripCount =>
    refine .bind (.ask h.tripCount_ends) fun _ => .bind (.ask h.tripCount_ends) fun _ => ?_
    exact .bind (.note _ _) fun _ => .pure _
  | dependence => exact .bind (.ask h.dependences_ends) fun _ => .bind (.take _) fun _ => .pure _

theorem tryGates_ends (pair : Nat) (gates : List Gate) : (s.tryGates l₁ l₂ pair gates).Ends := by
  induction gates with
  | nil => exact .pure _
  | cons g rest ih =>
    refine .bind (h.passes_ends g) fun passed => ?_
    split
    · exact .bind (.note _ _) fun _ => ih
    · exact .bind (.note _ _) fun _ => .pure _

theorem legality_ends (pair : Nat) : (s.legality l₁ l₂ pair).Ends :=
  .bind (.note _ _) fun _ => h.tryGates_ends pair _

theorem shapeOf_ends (l : Loop) : (s.shapeOf l).Ends := by
  refine .bind (.check _) fun _ => .bind (.lift (.ask h.inductionVariable_ends)) fun _ => ?_
  exact .bind (.check _) fun _ => .bind (.check _) fun _ => .pure _

theorem sameInduction_ends (sh₁ sh₂ : LoopShape) : (s.sameInduction sh₁ sh₂).Ends :=
  .bind (h.exprOf_ends _) fun _ => .bind (h.exprOf_ends _) fun _ => .pure _

theorem plan_ends (v : Legality) : (s.plan l₁ l₂ v).Ends := by
  cases v with
  | illegal g => exact fun memo => ⟨.error (.illegalPair g), memo, rfl⟩
  | legal =>
    refine .bind (h.shapeOf_ends l₁) fun sh₁ => .bind (h.shapeOf_ends l₂) fun sh₂ => ?_
    -- the guards of both loops are looked at, or there are none
    have rest : ∀ guards : Option GuardShape, Planning.Ends (do
        Planning.check (s.checkCode sh₁ sh₂ guards)
        let unify ← ExceptT.lift (Inquiry.ask (s.sameInduction sh₁ sh₂))
        let p : Plan := { first := sh₁, second := sh₂, guards, unify }
        Planning.check (s.checkAvailability p l₂ l₁)
        return p) := fun guards =>
      .bind (.check _) fun _ => .bind (.lift (.ask (h.sameInduction_ends sh₁ sh₂))) fun _ => .bind (.check _) fun _ => .pure _
    split
    · exact .bind (.check _) rest
    · exact rest none

theorem fuse_ends (v : Legality) (verify : Bool) : (s.fuse l₁ l₂ v verify).Ends := by
  refine .bind (h.plan_ends v) fun r => ?_
  cases r with
  | error e => exact .pure _
  | ok p => exact .bind (.note _ _) fun _ => .take _

theorem tryPair_ends (config : FusionConfig) (pair : Nat) : (s.tryPair config l₁ l₂ pair).Ends := by
  unfold tryPair
  split
  · exact .bind (.note _ _) fun _ => .pure _
  · refine .bind (h.legality_ends pair) fun v => ?_
    split
    · refine .bind (h.fuse_ends v _) fun r => ?_
      cases r with
      | ok g => exact .bind (.note _ _) fun _ => .pure _
      | error e => exact .bind (.note _ _) fun _ => .pure _
    · exact .pure _

/-- **The search for a pair ends.** -/
theorem fuseFirst_ends (config : FusionConfig) (pairs : List (Loop × Loop)) (tried : Nat) :
    (s.fuseFirst config pairs tried).Ends := by
  induction pairs generalizing tried with
  | nil => exact .pure _
  | cons pair rest ih =>
    refine .bind (h.tryPair_ends config _) fun r => ?_
    cases r with
    | some g => exact .pure _
    | none => exact ih _

end Acyclic

end Snapshot

end SsaFusion
