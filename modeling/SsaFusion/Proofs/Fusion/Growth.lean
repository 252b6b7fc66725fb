import SsaFusion.Fusion.Rounds
import SsaFusion.Proofs.Fusion.Recursions

/-!
# Questions extend the memo table

Whatever fusion asks about a pair of loops, it asks by way of expressions, and each answer is kept from then on. So the memo
table at the end of a search holds all that was answered on the way (`Query.Grows`, `Inquiry.Grows`): what the gates have
decided, they have decided by it.
-/

namespace SsaFusion

/-! ## Questions -/

namespace Query

variable {α β : Type}

/-- A question leaves in the memo table what is there. -/
def Grows (q : Query α) : Prop := ∀ memo a memo', q memo = some (a, memo') → memo.Extends memo'

theorem Grows.pure (a : α) : Grows (pure a : Query α) := by
  intro memo b memo' h
  obtain ⟨-, rfl⟩ := pure_eq_some_iff.mp h
  exact .refl memo

theorem Grows.bind {q : Query α} {k : α → Query β} (hq : q.Grows) (hk : ∀ a, (k a).Grows) : (q >>= k).Grows := by
  intro memo b memo' h
  obtain ⟨a, memo₁, ha, hb⟩ := bind_eq_some_iff.mp h
  exact (hq memo a memo₁ ha).trans (hk a memo₁ b memo' hb)

theorem Grows.lift (o : Option α) : Grows (liftM o : Query α) := by
  intro memo a memo' h
  cases o <;> cases h
  exact .refl memo

end Query

theorem Subject.exprOf_grows (s : Subject) (o : Operand) : (s.exprOf o).Grows :=
  fun _ _ _ h => (exprOf_eq_some_iff.mp h).grows

theorem Subject.exitTest_grows (s : Subject) (l : Loop) : (s.exitTest l).Grows := by
  unfold exitTest
  split
  · exact .pure _
  · exact .bind (s.exprOf_grows _) fun _ => .bind (s.exprOf_grows _) fun _ => .pure _

theorem Subject.tripCount_grows (s : Subject) (l : Loop) : (s.tripCount l).Grows :=
  .bind (s.exitTest_grows l) fun _ => .pure _

namespace Snapshot

variable (s : Snapshot) (l₁ l₂ : Loop)

theorem Follows.grows {s : Snapshot} {v : ValueId} {offset : SymExpr} {memo memo' : Memo} {r : Option Location}
    (h : s.Follows v offset memo r memo') : memo.Extends memo' := by
  induction h with
  | shift _ hcells _ ih => exact hcells.grows.trans ih
  | shiftLit _ hcells => exact hcells.grows
  | copy _ _ ih => exact ih
  | array | root | hidden => exact .refl _

theorem locationOf_grows (o : Operand) : (s.locationOf o).Grows := by
  cases o with
  | lit => exact .pure _
  | var v => exact fun _ _ _ h => (locationOf_eq_some_iff.mp h).grows

theorem accessesAt_grows (b : BlockId) (is : List (Instr × Nat)) : (s.accessesAt b is).Grows := by
  induction is with
  | nil => exact .pure _
  | cons i rest ih =>
    obtain ⟨i, n⟩ := i
    unfold accessesAt
    split
    · exact ih
    · exact .bind (s.locationOf_grows _) fun _ => .bind ih fun _ => .pure _

theorem accessesOf_grows (blocks : List BlockId) : (s.accessesOf blocks).Grows := by
  induction blocks with
  | nil => exact .pure _
  | cons b rest ih => exact .bind (s.accessesAt_grows b _) fun _ => .bind ih fun _ => .pure _

theorem dependences_grows : (s.dependences l₁ l₂).Grows :=
  .bind (.bind (s.accessesOf_grows _) fun _ => .bind (s.accessesOf_grows _) fun _ => .pure _) fun _ =>
    .bind (.lift _) fun _ => .pure _

end Snapshot

/-! ## Inquiries -/

namespace Inquiry

variable {α β : Type}

theorem bind_eq_some_iff {q : Inquiry α} {k : α → Inquiry β} {memo : Memo} {r : β × Memo} :
    ((q >>= k).run memo).result? = some r ↔
      ∃ a memo', (q.run memo).result? = some (a, memo') ∧ ((k a).run memo').result? = some r := by
  rw [StateT.run_bind, Attempt.result?_bind, Option.bind_eq_some_iff, Prod.exists]

/-- An inquiry leaves in the memo table what is there. -/
def Grows (q : Inquiry α) : Prop := ∀ memo a memo', (q.run memo).result? = some (a, memo') → memo.Extends memo'

theorem Grows.pure (a : α) : Grows (pure a : Inquiry α) := by
  intro memo b memo' h
  cases h
  exact .refl memo

theorem Grows.bind {q : Inquiry α} {k : α → Inquiry β} (hq : q.Grows) (hk : ∀ a, (k a).Grows) : (q >>= k).Grows := by
  intro memo b memo' h
  obtain ⟨a, memo₁, ha, hb⟩ := bind_eq_some_iff.mp h
  exact (hq memo a memo₁ ha).trans (hk a memo₁ b memo' hb)

theorem Grows.ask {q : Query α} (h : q.Grows) : (Inquiry.ask q).Grows := h

theorem Grows.take (t : Traced α) : (Inquiry.take t).Grows := by
  intro memo a memo' h
  cases h
  exact .refl memo

end Inquiry

theorem Gate.passes_grows (s : Snapshot) (l₁ l₂ : Loop) (g : Gate) : (g.passes s l₁ l₂).Grows := by
  cases g with
  | guardParity => exact .pure _
  | adjacency => exact .take _
  | tripCount =>
    exact .bind (.ask (s.tripCount_grows l₁)) fun _ => .bind (.ask (s.tripCount_grows l₂)) fun _ =>
      .bind (.take _) fun _ => .pure _
  | controlFlow => exact .take _
  | dependence => exact .bind (.ask (s.dependences_grows l₁ l₂)) fun _ => .bind (.take _) fun _ => .pure _

theorem Snapshot.tryGates_grows (s : Snapshot) (l₁ l₂ : Loop) (pair : Nat) (gates : List Gate) :
    (s.tryGates l₁ l₂ pair gates).Grows := by
  induction gates with
  | nil => exact .pure _
  | cons g rest ih =>
    refine .bind (g.passes_grows s l₁ l₂) fun passed => ?_
    cases passed with
    | false => exact .bind (.take _) fun _ => .pure _
    | true => exact .bind (.take _) fun _ => ih

end SsaFusion
