import SsaFusion.Fusion.Snapshot
import SsaFusion.Proofs.Flow.Grounded
import SsaFusion.Proofs.Flow.Nesting
import SsaFusion.Proofs.Symbolic.Description
import SsaFusion.Proofs.Symbolic.Rules

/-!
# Questions come to an end

To express a header phi, its value on the way back is asked for, which may lead to the phi again, to other phis of the
loop and to phis of loops around it. `Answers` is this recursion with no bound on its depth: a question has an answer if
the questions it leads to make up a finite tree.

The bounded recursion finds these answers and no others, in every function (`exprOf_eq_some_iff`). Two things make a
question smaller: what a value is still to be built from does not go round in a circle (`Answers.grounded`), and each time
the way back of a header phi is followed, one value more is known (`cost_lt_of_plant`).

In a valid function without unreachable blocks values are built from earlier ones (`rank_of_direct`), so every question
has an answer, whatever the memo table knows already (`exprOf_answers`).
-/

namespace SsaFusion

/-! ## Values are built from earlier values -/

namespace Func

variable {f : Func} {v x : ValueId}

/-- A value is defined on every path to the definition of another. -/
def Precedes (f : Func) (x v : ValueId) : Prop :=
  ∃ d m b n, f.DefinedAt x d m ∧ f.DefinedAt v b n ∧ f.Earlier (d, m) (b, n)

noncomputable instance : Decidable (f.Precedes x v) := Classical.propDecidable _

/-- The number of definitions on every path to a value, its own included; zero for what no instruction defines. -/
noncomputable def rank (f : Func) (v : ValueId) : Nat :=
  if v ∈ f.dests then (f.dests.filter fun d => f.Precedes d v).length + 1 else 0

section Order

variable (hn : f.defined.Nodup)

include hn

theorem not_precedes_self : ¬f.Precedes x x := by
  rintro ⟨d₁, m₁, d₂, m₂, h₁, h₂, hlt⟩
  obtain ⟨rfl, rfl⟩ := h₁.unique hn h₂
  exact hlt.irrefl

theorem rank_param (hx : x ∈ f.params) (hv : v ∈ f.dests) : f.rank x < f.rank v := by
  have hxd : x ∉ f.dests := fun h => by
    obtain ⟨b, hb⟩ := mem_dests.mp h
    exact not_mem_params hn hb hx
  rw [rank, rank, if_neg hxd, if_pos hv]
  omega

variable (hall : ∀ b, b < f.blocks.length → f.Live b)

include hall

theorem rank_lt (h : f.Precedes x v) : f.rank x < f.rank v := by
  obtain ⟨d, m, b, n, hx, hv, hlt⟩ := h
  have hlive := hv.live hall
  have hsub : ∀ y, f.Precedes y x → f.Precedes y v := by
    rintro y ⟨d', m', b', n', hy, hx', hlt'⟩
    obtain ⟨rfl, rfl⟩ := hx.unique hn hx'
    exact ⟨d', m', b, n, hy, hv, hlt'.trans hlt hlive⟩
  rw [rank, rank, if_pos hx.mem_dests, if_pos hv.mem_dests, Nat.add_lt_add_iff_right]
  calc (f.dests.filter fun d => f.Precedes d x).length
      = ((f.dests.filter fun d => f.Precedes d v).filter fun d => f.Precedes d x).length := by
        rw [List.filter_filter]
        congr 1
        refine List.filter_congr fun y _ => ?_
        by_cases hy : f.Precedes y x <;> simp [hy, hsub y]
    _ < (f.dests.filter fun d => f.Precedes d v).length :=
        List.length_filter_lt_length_iff_exists.mpr
          ⟨x, List.mem_filter.mpr ⟨hx.mem_dests, by simpa using ⟨d, m, b, n, hx, hv, hlt⟩⟩,
            by simpa using not_precedes_self hn⟩

theorem rank_of_available {b : BlockId} {n : Nat} (hv : f.DefinedAt v b n) (hx : f.AvailableBefore b n x) :
    f.rank x < f.rank v := by
  rcases availableBefore_iff.mp hx with hx | ⟨d, m, hx, hlt⟩
  · exact rank_param hn hx hv.mem_dests
  · exact rank_lt hn hall ⟨d, m, b, n, hx, hv, hlt⟩

end Order

/-- What an instruction other than a phi reads is defined before what it defines. -/
theorem rank_of_read (hf : f.Valid) (hall : ∀ b, b < f.blocks.length → f.Live b) {b : BlockId} {n : Nat} {i : Instr}
    (hi : f.instrAt? b n = some i) (hd : i.dest? = some v) (hphi : i.isPhi = false) (hx : x ∈ i.reads) :
    f.rank x < f.rank v := by
  have hdef : f.DefinedAt v b n := ⟨i, hi, hd⟩
  exact rank_of_available hf.once hall hdef (ReadsOk.iff_index.mp (hf.reads b (hdef.live hall)) n i hi hphi x hx)

/-- What a header phi starts with is available before the header. -/
theorem availableIn_start (hf : f.Valid) (hall : ∀ b, b < f.blocks.length → f.Live b) {l : Loop} (hl : l ∈ f.loops)
    {n : Nat} {i : Instr} (hi : f.instrAt? l.header n = some i) {sources : List (BlockId × Operand)}
    (hop : i.op = .phi v sources) {next : Operand}
    (hsplit : Subject.splitSources l sources = some (.var x, next)) : f.AvailableIn l.header x := by
  have hloop := isLoop_of_mem hl
  obtain ⟨p, q, hp, hq, hsources⟩ := splitSources_spec hsplit
  have hstart : (p, Operand.var x) ∈ sources := (hsources _).mpr (Or.inl rfl)
  have hedge : l.header ∈ f.successors p :=
    (hf.phis l.header hloop.live i (List.mem_of_getElem? hi) sources (by rw [Instr.sources?, hop]; rfl)).edges _ hstart
  have hlive : f.Live p := by
    obtain ⟨blk, hblk, _⟩ := mem_successors.mp hedge
    exact hall p (List.getElem?_eq_some_iff.mp hblk).1
  -- otherwise the edge from outside would be a back edge
  have hout : ¬f.Dominates l.header p := fun hdom => hp (hloop.tail_mem ((hloop.tails p).mpr ⟨hedge, hlive, hdom⟩))
  rcases readable_source hf hi hop hloop.live hstart hlive x rfl with h | ⟨d, hd, hx⟩
  · exact Or.inl h
  · have hne : l.header ≠ f.entry := fun e => hout (e ▸ Dominates.entry _)
    have hpdom := dominates_header_of_way_in hf hl hi hop hne hq hsources
    exact Or.inr ⟨d, ⟨fun e => hout (e ▸ hd), hd.trans hpdom⟩, hx⟩

end Func

/-! ## What is known -/

namespace Table

variable {κ α : Type} [DecidableEq κ] {t : Table κ α} {x y : κ} {a : α}

/-- A key is bound. -/
def Binds (t : Table κ α) (x : κ) : Prop := (t.get? x).isSome = true

theorem binds_of_get? (h : t.get? x = some a) : t.Binds x := by rw [Binds, h]; rfl

theorem binds_insert : (t.insert x a).Binds y ↔ x = y ∨ t.Binds y := by
  unfold Binds
  rw [get?_insert]
  by_cases e : x = y <;> simp [e]

end Table

/-- A memo table is extended: what it knows stays as it is. -/
def Memo.Extends (memo memo' : Memo) : Prop := ∀ v e, memo.get? v = some e → memo'.get? v = some e

namespace Memo.Extends

variable {memo memo₁ memo' : Memo} {v : ValueId}

theorem refl (memo : Memo) : memo.Extends memo := fun _ _ => id

theorem trans (h : memo.Extends memo₁) (h' : memo₁.Extends memo') : memo.Extends memo' := fun v e hv => h' v e (h v e hv)

theorem binds (h : memo.Extends memo') (hv : memo.Binds v) : memo'.Binds v := by
  obtain ⟨e, he⟩ := Option.isSome_iff_exists.mp hv
  exact Table.binds_of_get? (h v e he)

theorem insert (h : memo.Extends memo') (hnew : memo.get? v = none) (e : SymExpr) : memo.Extends (memo'.insert v e) := by
  intro w e' hw
  have hne : v ≠ w := fun heq => by
    rw [← heq, hnew] at hw
    cases hw
  rw [Table.get?_insert, if_neg hne]
  exact h w e' hw

end Memo.Extends

namespace Subject

/-! ## The recursion without a bound -/

/-- The answer to a question and the memo table after it. A header phi is asked for on its way back while it is a leaf, and
what was learned there is forgotten before its start is asked for. -/
inductive Answers (s : Subject) : Operand → Memo → SymExpr → Memo → Prop
  | int (memo : Memo) (n : Word) : Answers s (.lit (.int n)) memo (.const n) memo
  | bool (memo : Memo) (b : Bool) : Answers s (.lit (.bool b)) memo .unknown memo
  | known {memo : Memo} {v : ValueId} {e : SymExpr} (h : memo.get? v = some e) : Answers s (.var v) memo e memo
  | given {memo : Memo} {v : ValueId} {e : SymExpr} (hnew : memo.get? v = none) (hr : s.rule v = .given e) :
    Answers s (.var v) memo e (memo.insert v e)
  | one {memo memo₁ : Memo} {v : ValueId} {x : Operand} {build : SymExpr → SymExpr} {e : SymExpr}
    (hnew : memo.get? v = none) (hr : s.rule v = .one x build) (hx : Answers s x memo e memo₁) :
    Answers s (.var v) memo (build e) (memo₁.insert v (build e))
  | two {memo memo₁ memo₂ : Memo} {v : ValueId} {x y : Operand} {build : SymExpr → SymExpr → SymExpr} {a e : SymExpr}
    (hnew : memo.get? v = none) (hr : s.rule v = .two x y build) (hx : Answers s x memo a memo₁)
    (hy : Answers s y memo₁ e memo₂) : Answers s (.var v) memo (build a e) (memo₂.insert v (build a e))
  | cycle {memo memo₁ memo₂ : Memo} {v : ValueId} {l : Loop} {start next : Operand} {a e : SymExpr}
    (hnew : memo.get? v = none) (hr : s.rule v = .cycle l start next)
    (hnext : Answers s next (memo.insert v (.leaf v)) e memo₁) (hstart : Answers s start memo a memo₂) :
    Answers s (.var v) memo (s.cycleExpr l v a e) (memo₂.insert v (s.cycleExpr l v a e))

variable {s : Subject} {o : Operand} {memo memo' : Memo} {v x : ValueId} {e : SymExpr}

namespace Answers

theorem grows (h : s.Answers o memo e memo') : memo.Extends memo' := by
  induction h with
  | int | bool | known => exact .refl _
  | given hnew => exact (Memo.Extends.refl _).insert hnew _
  | one hnew _ _ ih => exact ih.insert hnew _
  | two hnew _ _ _ ihx ihy => exact (ihx.trans ihy).insert hnew _
  | cycle hnew _ _ _ _ ih => exact ih.insert hnew _

/-- An answer is kept. -/
theorem kept (h : s.Answers (.var v) memo e memo') : memo'.get? v = some e := by
  cases h with
  | known h => exact h
  | given | one | two | cycle => rw [Table.get?_insert, if_pos rfl]

theorem binds (h : s.Answers (.var v) memo e memo') : memo'.Binds v := Table.binds_of_get? h.kept

end Answers

/-! ### What the bounded recursion finds is an answer -/

theorem answers_of_operandExpr {ask : ValueId → Query SymExpr}
    (hask : ∀ {v memo e memo'}, ask v memo = some (e, memo') → s.Answers (.var v) memo e memo')
    (h : operandExpr ask o memo = some (e, memo')) : s.Answers o memo e memo' := by
  cases o with
  | lit x =>
    cases x with
    | int n =>
      cases h
      exact .int memo n
    | bool b =>
      cases h
      exact .bool memo b
  | var v => exact hask h

theorem answers_of_valueExpr {k : Nat} (h : s.valueExpr k v memo = some (e, memo')) : s.Answers (.var v) memo e memo' := by
  induction k generalizing v memo e memo' with
  | zero => cases h
  | succ k ih =>
    rw [valueExpr, definitionExpr_eq] at h
    cases hnew : memo.get? v with
    | some e' =>
      rw [remember_known hnew] at h
      cases h
      exact .known hnew
    | none =>
      rw [remember_new hnew, Option.map_eq_some_iff] at h
      obtain ⟨p, hp, heq⟩ := h
      cases heq
      cases hr : s.rule v with
      | given e =>
        rw [hr] at hp
        cases hp
        exact .given hnew hr
      | one x build =>
        rw [hr, follow_one, Option.map_eq_some_iff] at hp
        obtain ⟨q, hx, rfl⟩ := hp
        exact .one hnew hr (answers_of_operandExpr ih hx)
      | two x y build =>
        rw [hr, follow_two, Option.bind_eq_some_iff] at hp
        obtain ⟨q, hx, hp⟩ := hp
        obtain ⟨q', hy, rfl⟩ := Option.map_eq_some_iff.mp hp
        exact .two hnew hr (answers_of_operandExpr ih hx) (answers_of_operandExpr ih hy)
      | cycle l start next =>
        rw [hr, follow_cycle, Option.bind_eq_some_iff] at hp
        obtain ⟨q, hnext, hp⟩ := hp
        obtain ⟨q', hstart, rfl⟩ := Option.map_eq_some_iff.mp hp
        exact .cycle hnew hr (answers_of_operandExpr ih hnext) (answers_of_operandExpr ih hstart)

/-! ### What has an answer does not go round in a circle -/

/-- The values that have to be expressed for a value with no leaf more: none if it is known. -/
def pending (s : Subject) (memo : Memo) (v : ValueId) : List ValueId :=
  if (memo.get? v).isSome then [] else s.direct v

theorem mem_pending : x ∈ s.pending memo v ↔ ¬memo.Binds v ∧ x ∈ s.direct v := by
  unfold pending Table.Binds
  split <;> simp [*]

theorem pending_sub (h : memo.Extends memo') (v : ValueId) : ∀ x ∈ s.pending memo' v, x ∈ s.pending memo v := by
  intro x hx
  rw [mem_pending] at hx ⊢
  exact ⟨fun hb => hx.1 (h.binds hb), hx.2⟩

theorem grounded_of_binds (h : memo.Binds v) : Grounded (s.pending memo) v :=
  grounded_iff.mpr fun _ hx => absurd h (mem_pending.mp hx).1

/-- What was learned may be forgotten if it could have been expressed. -/
theorem grounded_of_learned (hlearned : ∀ w, memo'.Binds w → Grounded (s.pending memo) w)
    (h : Grounded (s.pending memo') v) : Grounded (s.pending memo) v := by
  induction h with
  | intro v _ ih =>
    by_cases hv : memo'.Binds v
    · exact hlearned v hv
    · exact grounded_iff.mpr fun x hx => ih x (mem_pending.mpr ⟨hv, (mem_pending.mp hx).2⟩)

/-- A value that is built from what could be expressed could be expressed. -/
theorem grounded_of_operands (h : ∀ x, .var x ∈ (s.rule v).operands → Grounded (s.pending memo) x) :
    Grounded (s.pending memo) v :=
  grounded_iff.mpr fun x hx => h x ((s.mem_direct).mp (mem_pending.mp hx).2)

/-- **What is known after an answer does not go round in a circle**, through values that were not known before. -/
theorem Answers.grounded (h : s.Answers o memo e memo') : ∀ w, memo'.Binds w → Grounded (s.pending memo) w := by
  induction h with
  | int | bool | known => exact fun w => grounded_of_binds
  | given _ hr =>
    intro w hw
    rcases Table.binds_insert.mp hw with rfl | hw
    · exact grounded_of_operands fun x hx => by simp [hr, Rule.operands] at hx
    · exact grounded_of_binds hw
  | one _ hr hx ih =>
    intro w hw
    rcases Table.binds_insert.mp hw with rfl | hw
    · refine grounded_of_operands fun y hy => ?_
      obtain rfl : Operand.var y = _ := by simpa [hr, Rule.operands] using hy
      exact ih y hx.binds
    · exact ih w hw
  | @two _ _ _ _ x y _ _ _ _ hr hx hy ihx ihy =>
    have learned := fun w hw => grounded_of_learned ihx (ihy w hw)
    intro w hw
    rcases Table.binds_insert.mp hw with rfl | hw
    · refine grounded_of_operands fun z hz => ?_
      have hz : .var z = x ∨ .var z = y := by simpa [hr, Rule.operands] using hz
      rcases hz with rfl | rfl
      · exact ihx z hx.binds
      · exact learned z hy.binds
    · exact learned w hw
  | cycle _ hr _ hstart _ ih =>
    intro w hw
    rcases Table.binds_insert.mp hw with rfl | hw
    · refine grounded_of_operands fun y hy => ?_
      obtain rfl : Operand.var y = _ := by simpa [hr, Rule.operands] using hy
      exact ih y hstart.binds
    · exact ih w hw

/-! ### How deep a question goes -/

/-- A rule is that of an instruction, or asks for nothing. -/
theorem rule_cases (s : Subject) (v : ValueId) : (∃ e, s.rule v = .given e) ∨
    ∃ b n i, s.func.instrAt? b n = some i ∧ i.dest? = some v ∧ s.rule v = s.opRule v b i.op := by
  unfold rule
  cases hsite : s.func.site? v with
  | none => exact Or.inl ⟨_, rfl⟩
  | some site =>
    cases site with
    | param => exact Or.inl ⟨_, rfl⟩
    | instr b n =>
      obtain ⟨i, hi, hd⟩ := Func.exists_instr_of_site? hsite
      refine Or.inr ⟨b, n, i, hi, hd, ?_⟩
      simp only [hi]

/-- Only what an instruction defines needs anything. -/
theorem mem_dests_of_needs (h : x ∈ s.needs v) : v ∈ s.func.dests := by
  rcases s.rule_cases v with ⟨e, hr⟩ | ⟨b, n, i, hi, hd, _⟩
  · simp [needs, direct, back?, hr, Rule.operands, Rule.next?, valuesOf] at h
  · exact Func.DefinedAt.mem_dests ⟨i, hi, hd⟩

/-- The number of values of a function that a memo table does not know. -/
def unknowns (s : Subject) (memo : Memo) : Nat := (s.func.dests.filter fun d => (memo.get? d).isNone).length

theorem unknowns_le (h : memo.Extends memo') : s.unknowns memo' ≤ s.unknowns memo := by
  refine (List.monotone_filter_right _ fun d hd => ?_).length_le
  by_contra hb
  have hb : memo.Binds d := by simpa [Table.Binds, Option.isSome_iff_ne_none] using hb
  have := h.binds hb
  simp_all [Table.Binds]

theorem unknowns_plant (hv : v ∈ s.func.dests) (hnew : memo.get? v = none) :
    s.unknowns (memo.insert v e) < s.unknowns memo := by
  have hsplit : (s.func.dests.filter fun d => ((memo.insert v e).get? d).isNone) =
      (s.func.dests.filter fun d => (memo.get? d).isNone).filter (· != v) := by
    rw [List.filter_filter]
    refine List.filter_congr fun d _ => ?_
    rw [Table.get?_insert]
    by_cases hd : v = d
    · simp [hd]
    · simp [hd, Ne.symm hd]
  rw [unknowns, hsplit]
  exact List.length_filter_lt_length_iff_exists.mpr ⟨v, List.mem_filter.mpr ⟨hv, by simp [hnew]⟩, by simp⟩

/-- A bound on the depth of a question. -/
noncomputable def cost (s : Subject) (memo : Memo) (v : ValueId) : Nat :=
  s.unknowns memo * (s.func.instrs.length + 2) + height (s.pending memo) s.func.dests v

theorem height_pending_le : height (s.pending memo) s.func.dests v ≤ s.func.instrs.length :=
  Nat.le_trans height_le (List.length_filterMap_le _ _)

theorem cost_lt_of_operand (hnew : memo.get? v = none) (hv : Grounded (s.pending memo) v) (hext : memo.Extends memo')
    (ho : o ∈ (s.rule v).operands) (hx : o = .var x) : s.cost memo' x < s.cost memo v := by
  subst hx
  have hpending : x ∈ s.pending memo v := mem_pending.mpr ⟨by simp [Table.Binds, hnew], s.mem_direct.mpr ho⟩
  have hlt := height_lt hv (mem_dests_of_needs (mem_needs_of_operand ho rfl)) hpending
  have hle : height (s.pending memo') s.func.dests x ≤ height (s.pending memo) s.func.dests x :=
    height_le_of_fewer (pending_sub hext)
  have hmul := Nat.mul_le_mul_right (s.func.instrs.length + 2) (unknowns_le (s := s) hext)
  unfold cost
  omega

theorem cost_lt_of_plant (hv : v ∈ s.func.dests) (hnew : memo.get? v = none) :
    s.cost (memo.insert v e) x < s.cost memo v := by
  have hle : height (s.pending (memo.insert v e)) s.func.dests x ≤ s.func.instrs.length := height_pending_le
  have hmul := Nat.mul_le_mul_right (s.func.instrs.length + 2) (unknowns_plant (e := e) hv hnew)
  rw [Nat.succ_mul] at hmul
  unfold cost
  omega

theorem cost_lt_depthBound : s.cost memo v < s.depthBound := by
  have hcount : s.unknowns memo ≤ s.func.instrs.length :=
    Nat.le_trans (List.length_filter_le _ _) (List.length_filterMap_le _ _)
  have hle : height (s.pending memo) s.func.dests v ≤ s.func.instrs.length := height_pending_le
  have hmul := Nat.mul_le_mul_right (s.func.instrs.length + 2) hcount
  have hbound : s.depthBound = s.func.instrs.length * (s.func.instrs.length + 2) + 2 * (s.func.instrs.length + 2) :=
    Nat.add_mul ..
  unfold cost
  omega

/-- A value that is not known is answered for by its rule. -/
theorem operandExpr_of_follow {k : Nat} {r : SymExpr × Memo} (hk : s.cost memo v < k) (hnew : memo.get? v = none)
    (hfollow : ∀ j, k = j + 1 → s.follow (s.valueExpr j) v (s.rule v) memo = some r) :
    operandExpr (s.valueExpr k) (.var v) memo = some (r.1, r.2.insert v r.1) := by
  obtain ⟨j, rfl⟩ : ∃ j, k = j + 1 := ⟨k - 1, by omega⟩
  show s.valueExpr (j + 1) v memo = _
  rw [valueExpr, definitionExpr_eq, remember_new hnew, hfollow j rfl]
  rfl

/-- **A recursion that is deep enough finds the answer.** -/
theorem Answers.found (h : s.Answers o memo e memo') {k : Nat} (hk : ∀ v, o = .var v → s.cost memo v < k) :
    operandExpr (s.valueExpr k) o memo = some (e, memo') := by
  induction h generalizing k with
  | int | bool => rfl
  | @known memo v e hknown =>
    obtain ⟨k, rfl⟩ : ∃ j, k = j + 1 := ⟨k - 1, by have := hk v rfl; omega⟩
    show s.valueExpr (k + 1) v memo = _
    rw [valueExpr, remember_known hknown]
  | @given memo v e hnew hr => exact operandExpr_of_follow (r := (e, memo)) (hk v rfl) hnew fun j _ => by rw [hr]; rfl
  | @one memo memo₁ v x build e hnew hr hx ih =>
    refine operandExpr_of_follow (r := (build e, memo₁)) (hk v rfl) hnew fun j hj => ?_
    have hground := (Answers.one hnew hr hx).grounded v (Answers.one hnew hr hx).binds
    rw [hr, follow_one, ih fun w hw => ?_]
    · rfl
    · have := cost_lt_of_operand hnew hground (.refl _) (by simp [hr, Rule.operands]) hw
      have := hk v rfl
      omega
  | @two memo memo₁ memo₂ v x y build a e hnew hr hx hy ihx ihy =>
    refine operandExpr_of_follow (r := (build a e, memo₂)) (hk v rfl) hnew fun j hj => ?_
    have hground := (Answers.two hnew hr hx hy).grounded v (Answers.two hnew hr hx hy).binds
    have := hk v rfl
    rw [hr, follow_two, ihx fun w hw => ?_, Option.bind_some, ihy fun w hw => ?_]
    · rfl
    · have := cost_lt_of_operand hnew hground hx.grows (by simp [hr, Rule.operands]) hw
      omega
    · have := cost_lt_of_operand hnew hground (.refl _) (by simp [hr, Rule.operands]) hw
      omega
  | @cycle memo memo₁ memo₂ v l start next a e hnew hr hnext hstart ihn ihs =>
    refine operandExpr_of_follow (r := (s.cycleExpr l v a e, memo₂)) (hk v rfl) hnew fun j hj => ?_
    have hground := (Answers.cycle hnew hr hnext hstart).grounded v (Answers.cycle hnew hr hnext hstart).binds
    have := hk v rfl
    rw [hr, follow_cycle, ihn fun w hw => ?_, Option.bind_some, ihs fun w hw => ?_]
    · rfl
    · have := cost_lt_of_operand hnew hground (.refl _) (by simp [hr, Rule.operands]) hw
      omega
    · have hv := mem_dests_of_needs (mem_needs_of_next (by rw [hr]; rfl) hw)
      have := cost_lt_of_plant (s := s) (e := .leaf v) (x := w) hv hnew
      omega

/-- **The bounded recursion has an answer just when the recursion without a bound has**, and it is the same. -/
theorem exprOf_eq_some_iff : s.exprOf o memo = some (e, memo') ↔ s.Answers o memo e memo' :=
  ⟨answers_of_operandExpr answers_of_valueExpr, fun h => h.found fun _ _ => cost_lt_depthBound⟩

/-! ## Every question has an answer -/

/-- A value that is not known has an answer if the operands of its rule have: each with what was learned from those before,
and that of the way back with the value as a leaf. -/
theorem exists_answer_of_rule (hnew : memo.get? v = none)
    (hask : ∀ {memo' : Memo} {o : Operand}, memo.Extends memo' → o ∈ (s.rule v).operands →
      ∃ e memo₁, s.Answers o memo' e memo₁)
    (hnext : ∀ next, (s.rule v).next? = some next → ∃ e memo₁, s.Answers next (memo.insert v (.leaf v)) e memo₁) :
    ∃ e memo', s.Answers (.var v) memo e memo' := by
  cases hr : s.rule v with
  | given e => exact ⟨_, _, .given hnew hr⟩
  | one x build =>
    obtain ⟨e, memo₁, hx⟩ := hask (.refl _) (o := x) (by simp [hr, Rule.operands])
    exact ⟨_, _, .one hnew hr hx⟩
  | two x y build =>
    obtain ⟨a, memo₁, hx⟩ := hask (.refl _) (o := x) (by simp [hr, Rule.operands])
    obtain ⟨e, memo₂, hy⟩ := hask hx.grows (o := y) (by simp [hr, Rule.operands])
    exact ⟨_, _, .two hnew hr hx hy⟩
  | cycle l start next =>
    obtain ⟨e, memo₁, hn⟩ := hnext next (by rw [hr]; rfl)
    obtain ⟨a, memo₂, hs⟩ := hask (.refl _) (o := start) (by simp [hr, Rule.operands])
    exact ⟨_, _, .cycle hnew hr hn hs⟩

theorem exists_answer_of_var (h : ∀ v, o = .var v → ∃ e memo', s.Answers (.var v) memo e memo') :
    ∃ e memo', s.Answers o memo e memo' := by
  cases o with
  | lit x =>
    cases x with
    | int n => exact ⟨_, _, .int memo n⟩
    | bool b => exact ⟨_, _, .bool memo b⟩
  | var v => exact h v rfl

/-- **Where values are not built from each other in a circle, every question has an answer.** -/
theorem exists_answer (hground : ∀ v, Grounded s.direct v) (o : Operand) (memo : Memo) :
    ∃ e memo', s.Answers o memo e memo' := by
  suffices h : ∀ v, ∃ e memo', s.Answers (.var v) memo e memo' from exists_answer_of_var fun v _ => h v
  -- the way back is followed with one value more known, the rest from values with less below them
  intro v
  induction hn : s.unknowns memo using Nat.strong_induction_on generalizing memo v with
  | _ n ihn =>
    subst hn
    have hless : ∀ memo', s.unknowns memo' ≤ s.unknowns memo → ∃ e memo₁, s.Answers (.var v) memo' e memo₁ := by
      induction hground v with
      | intro v _ ihv =>
        intro memo' hle
        cases hnew : memo'.get? v with
        | some e => exact ⟨e, memo', .known hnew⟩
        | none =>
          refine exists_answer_of_rule hnew (fun {memo₁ o} hext ho => exists_answer_of_var ?_)
            (fun next hnext => exists_answer_of_var ?_)
          · rintro w rfl
            exact ihv w (s.mem_direct.mpr ho) memo₁ (Nat.le_trans (unknowns_le hext) hle)
          · rintro w rfl
            have hv := mem_dests_of_needs (mem_needs_of_next hnext rfl)
            exact ihn _ (Nat.lt_of_lt_of_le (unknowns_plant hv hnew) hle) _ _ rfl
    exact hless memo (Nat.le_refl _)

section Valid

variable {f : Func} (hf : f.Valid) (hall : ∀ b, b < f.blocks.length → f.Live b)

include hf hall

/-- What a value is built from is defined before it. -/
theorem rank_of_direct (hx : x ∈ (Snapshot.of f).direct v) : f.rank x < f.rank v := by
  rcases (Snapshot.of f).rule_cases v with ⟨e, hr⟩ | ⟨b, n, i, hi, hd, hr⟩
  · simp [direct, hr, Rule.operands, valuesOf] at hx
  · rw [mem_direct, hr] at hx
    by_cases hphi : i.isPhi = true
    · obtain ⟨d, sources, hop⟩ := Instr.eq_phi_of_isPhi hphi
      rw [hop] at hx
      rcases phiRule_cases (s := (Snapshot.of f).toSubject) v b sources with
        hgiven | ⟨l, start, next, hl, rfl, hsplit, hcycle⟩
      · simp [opRule, hgiven, Rule.operands] at hx
      · obtain rfl : .var x = start := by simpa [opRule, hcycle, Rule.operands] using hx
        exact Func.rank_of_available hf.once hall ⟨i, hi, hd⟩
          (Or.inl (Func.availableIn_start hf hall (Func.loopOf_eq_some.mp hl).1 hi hop hsplit))
    · have hphi : i.isPhi = false := by simpa using hphi
      exact Func.rank_of_read hf hall hi hd hphi (List.mem_filterMap.mpr ⟨_, (opRule_of_not_phi hphi b).2 _ hx, rfl⟩)

theorem grounded_direct (v : ValueId) : Grounded (Snapshot.of f).direct v :=
  Subrelation.accessible (fun hx => rank_of_direct hf hall hx) ((measure f.rank).wf.apply v)

theorem exprOf_answers (o : Operand) (memo : Memo) :
    ∃ e memo', (Snapshot.of f).exprOf o memo = some (e, memo') ∧ (Snapshot.of f).Answers o memo e memo' := by
  obtain ⟨e, memo', h⟩ := exists_answer (grounded_direct hf hall) o memo
  exact ⟨e, memo', exprOf_eq_some_iff.mpr h, h⟩

end Valid

end Subject

end SsaFusion
