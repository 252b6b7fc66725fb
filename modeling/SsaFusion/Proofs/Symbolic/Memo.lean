import SsaFusion.Proofs.Symbolic.Answers

/-!
# The memo table

Answers that are kept were found while certain header phis were taken as leaves, and are used later while more of them are.
This changes nothing as long as no two header phis need each other to grow (`entangled`): then what the way back of a phi
needs and is known already does not need the phi (`Fits.plant`). So a memo table holds the expressions that the rules yield,
for all that may be asked (`Fits`), every question is answered by what the rules yield (`Answers.settles`), and the
answers do not depend on the questions before (`exprOf_ignores_history`). Without that condition they do
(`crossedGrowth_remembers`).
-/

namespace SsaFusion

namespace Subject

variable (s : Subject)

/-! ## Entangled header phis -/

/-- What a header phi needs to grow, besides itself. -/
def growthNeeds (p : ValueId) : List ValueId :=
  match s.back? p with
  | some x => reach s.needs (s.func.dests.filter (· != p)) [x]
  | none => []

/-- The pairs of header phis that need each other to grow. -/
def entangled : List (ValueId × ValueId) :=
  s.func.dests.flatMap fun p => ((s.growthNeeds p).filter fun q => (s.growthNeeds q).contains p).map fun q => (p, q)

variable {s} {p q v w x y : ValueId}

theorem mem_growthNeeds : q ∈ s.growthNeeds p ↔
    ∃ x, s.back? p = some x ∧ Reaches s.needs (fun z => z ∈ s.func.dests ∧ z ≠ p) x q := by
  unfold growthNeeds
  cases s.back? p with
  | none => simp
  | some x => simp [mem_reach]

theorem mem_entangled : (p, q) ∈ s.entangled ↔ p ∈ s.func.dests ∧ q ∈ s.growthNeeds p ∧ p ∈ s.growthNeeds q := by
  simp [entangled]

/-! ## Memo tables that fit -/

/-- A set of values that holds what its values need, unless they are leaves. -/
def Closed (s : Subject) (planted : Finset ValueId) (scope : ValueId → Prop) : Prop :=
  ∀ w, scope w → w ∉ planted → ∀ y ∈ s.needs w, scope y

/-- A memo table that knows some values as leaves, knows with a value those it is built from, and in some scope knows
expressions that the rules yield. -/
structure Fits (s : Subject) (planted : Finset ValueId) (scope : ValueId → Prop) (memo : Memo) : Prop where
  leaves : ∀ p ∈ planted, memo.get? p = some (.leaf p)
  closed : ∀ v ∉ planted, memo.Binds v → ∀ x ∈ s.direct v, memo.Binds x
  right : ∀ v ∉ planted, scope v → ∀ e, memo.get? v = some e → s.Yields planted (.var v) e

variable {planted : Finset ValueId} {scope : ValueId → Prop} {memo memo' : Memo} {e : SymExpr}

/-- What is not known is no leaf. -/
theorem Fits.not_planted (h : s.Fits planted scope memo) (hnew : memo.get? v = none) : v ∉ planted :=
  fun hmem => by simp [h.leaves v hmem] at hnew

/-- What the rule of a value asks for with no leaf more is in the scope of the value. -/
theorem Closed.of_operand (h : s.Closed planted scope) (hv : scope v) (hnot : v ∉ planted) {o : Operand}
    (ho : o ∈ (s.rule v).operands) : ∀ w, o = .var w → scope w :=
  fun w hw => h v hv hnot w (mem_needs_of_operand ho hw)

theorem Fits.learn (h : s.Fits planted scope memo) (hv : v ∉ planted) (he : s.Yields planted (.var v) e)
    (hd : ∀ x ∈ s.direct v, memo.Binds x) : s.Fits planted scope (memo.insert v e) := by
  refine ⟨fun p hp => ?_, fun w hw hb x hx => ?_, fun w hw hs e' hget => ?_⟩
  · have hne : v ≠ p := fun e => hv (e ▸ hp)
    rw [Table.get?_insert, if_neg hne]
    exact h.leaves p hp
  · refine Table.binds_insert.mpr (Or.inr ?_)
    rcases Table.binds_insert.mp hb with rfl | hb
    · exact hd x hx
    · exact h.closed w hw hb x hx
  · rw [Table.get?_insert] at hget
    split at hget
    · rename_i e
      cases hget
      exact e ▸ he
    · exact h.right w hw hs e' hget

/-! ### Planting a leaf -/

/-- What is asked for on the way back of a header phi. -/
def Behind (s : Subject) (planted : Finset ValueId) (v w : ValueId) : Prop :=
  w ∈ planted ∨ ∃ x, s.back? v = some x ∧ Reaches s.needs (· ∉ planted) x w

theorem closed_behind : s.Closed planted (s.Behind planted v) := by
  rintro w (hw | ⟨x, hx, hr⟩) hnot y hy
  · exact absurd hw hnot
  · by_cases hmem : y ∈ planted
    · exact Or.inl hmem
    · exact Or.inr ⟨x, hx, .tail hr hy hmem⟩

theorem behind_next (hx : s.back? v = some x) : s.Behind planted v x := by
  by_cases hmem : x ∈ planted
  · exact Or.inl hmem
  · exact Or.inr ⟨x, hx, .refl hmem⟩

theorem mem_needs_of_back (hx : s.back? v = some x) : x ∈ s.needs v := by
  refine List.mem_append_right _ ?_
  rw [hx]
  exact List.mem_singleton_self x

theorem Closed.of_reaches (h : s.Closed planted scope) (hx : scope x) (hr : Reaches s.needs (· ∉ planted) x w) :
    scope w := by
  induction hr with
  | refl => exact hx
  | tail hr hs _ ih => exact h _ ih hr.ok_end _ hs

/-- Where a way leaves what is known, it follows the way back of a header phi. -/
theorem Fits.exists_crossing (h : s.Fits planted scope memo) {ok : ValueId → Prop} (hok : ∀ z, ok z → z ∉ planted)
    (hw : memo.Binds w) (hr : Reaches s.needs ok w y) :
    memo.Binds y ∨ ∃ q x, memo.Binds q ∧ s.back? q = some x ∧ Reaches s.needs ok w q ∧
      Reaches s.needs (fun z => ok z ∧ ¬memo.Binds z) x y := by
  induction hr with
  | refl => exact Or.inl hw
  | @tail z y hz hs hy ih =>
    by_cases hb : memo.Binds y
    · exact Or.inl hb
    · refine Or.inr ?_
      rcases ih with ih | ⟨q, x, hq, hx, hwq, hxz⟩
      · rcases List.mem_append.mp hs with hs | hs
        · exact absurd (h.closed z (hok z hz.ok_end) ih y hs) hb
        · exact ⟨z, y, ih, Option.mem_toList.mp hs, hz, .refl ⟨hy, hb⟩⟩
      · exact ⟨q, x, hq, hx, hwq, .tail hxz hs ⟨hy, hb⟩⟩

/-- A way from what is known to what is not follows the way back of a known header phi. -/
theorem Fits.exists_way_back (h : s.Fits planted scope memo) (hw : memo.Binds w) (hv : ¬memo.Binds v)
    (hr : Reaches s.needs (· ∉ planted) w v) :
    ∃ q x, s.back? q = some x ∧ Reaches s.needs (fun z => z ∉ planted ∧ z ≠ v) w q ∧ Reaches s.needs (· ≠ q) x v := by
  have hne : ∀ {q}, memo.Binds q → ∀ z, ¬memo.Binds z → z ≠ q := fun hq z hz e => hz (e ▸ hq)
  obtain ⟨u, hu, hs⟩ := hr.arrives (hne hw v hv).symm
  rcases h.exists_crossing (fun _ hz => hz.1) hw hu with hb | ⟨q, x, hq, hx, hwq, hxu⟩
  · rcases List.mem_append.mp hs with hs | hs
    · exact absurd (h.closed u hu.ok_end.1 hb v hs) hv
    · exact ⟨u, v, Option.mem_toList.mp hs, hu, .refl (hne hb v hv)⟩
  · exact ⟨q, x, hx, hwq, .tail (hxu.mono fun z hz => hne hq z hz.2) hs (hne hq v hv)⟩

/-! ## The rules of a valid function -/

section Rules

variable {f : Func}

/-- A way to what an instruction defines passes only what instructions define. -/
theorem reaches_within_dests {ok : ValueId → Prop} (h : Reaches (Snapshot.of f).needs ok x y) (hy : y ∈ f.dests) :
    Reaches (Snapshot.of f).needs (fun z => z ∈ f.dests ∧ ok z) x y := by
  induction h with
  | refl hok => exact .refl ⟨hy, hok⟩
  | tail _ hs hok ih => exact .tail (ih (mem_dests_of_needs hs)) hs ⟨hy, hok⟩

/-- **A header phi that is not known may be taken as a leaf**: what is known and needed on its way back does not need it,
unless it is entangled with another one. -/
theorem Fits.plant {memo : Memo} (h : (Snapshot.of f).Fits planted scope memo) (hsep : (Snapshot.of f).entangled = [])
    (hscope : (Snapshot.of f).Closed planted scope) (hv : scope v) (hnew : memo.get? v = none) :
    (Snapshot.of f).Fits (insert v planted) ((Snapshot.of f).Behind (insert v planted) v) (memo.insert v (.leaf v)) := by
  have hunknown : ¬memo.Binds v := by simp [Table.Binds, hnew]
  have hnot := h.not_planted hnew
  refine ⟨fun p hp => ?_, fun w hw hb x hx => ?_, fun w hw hbehind e hget => ?_⟩
  · rw [Table.get?_insert]
    split
    · rename_i e
      rw [e]
    · rename_i hne
      exact h.leaves p ((Finset.mem_insert.mp hp).resolve_left (Ne.symm hne))
  · rw [Finset.mem_insert, not_or] at hw
    refine Table.binds_insert.mpr (Or.inr (h.closed w hw.2 ?_ x hx))
    exact (Table.binds_insert.mp hb).resolve_left (Ne.symm hw.1)
  · have hwv := hw
    rw [Finset.mem_insert, not_or] at hwv
    rw [Table.get?_insert, if_neg (Ne.symm hwv.1)] at hget
    obtain ⟨x, hx, hxw⟩ := hbehind.resolve_left hw
    have hneeds := mem_needs_of_back hx
    have hw' : scope w := hscope.of_reaches (hscope v hv hnot x hneeds)
      (hxw.mono fun z hz hmem => hz (Finset.mem_insert_of_mem hmem))
    refine (h.right w hwv.2 hw' e hget).plant fun _ hw' hr => ?_
    cases hw'
    -- then another phi needs this one to grow, and is needed on its way back
    obtain ⟨q, x', hx', hwq, hqv⟩ := h.exists_way_back (Table.binds_of_get? hget) hunknown hr
    have hvd : v ∈ f.dests := mem_dests_of_needs hneeds
    have hqd : q ∈ f.dests := mem_dests_of_needs (mem_needs_of_back hx')
    have hmem : (v, q) ∈ (Snapshot.of f).entangled := by
      refine mem_entangled.mpr ⟨hvd, mem_growthNeeds.mpr ⟨x, hx, ?_⟩, mem_growthNeeds.mpr ⟨x', hx', ?_⟩⟩
      · refine reaches_within_dests (.trans (hxw.mono fun z hz e => ?_) (hwq.mono fun z hz => hz.2)) hqd
        exact hz (e ▸ Finset.mem_insert_self v planted)
      · exact reaches_within_dests hqv hvd
    rw [hsep] at hmem
    cases hmem

end Rules

/-! ## Answers -/

section Valid

variable {f : Func} (hsep : (Snapshot.of f).entangled = [])

include hsep

/-- **Every answer is what the rules yield**, and leaves a memo table that fits. -/
theorem Answers.settles {o : Operand} (h : (Snapshot.of f).Answers o memo e memo')
    (hscope : (Snapshot.of f).Closed planted scope) (hfit : (Snapshot.of f).Fits planted scope memo)
    (ho : ∀ v, o = .var v → scope v) :
    (Snapshot.of f).Yields planted o e ∧ (Snapshot.of f).Fits planted scope memo' := by
  induction h generalizing planted scope with
  | int _ n => exact ⟨.int _ n, hfit⟩
  | bool _ b => exact ⟨.bool _ b, hfit⟩
  | @known memo v e hknown =>
    refine ⟨?_, hfit⟩
    by_cases hmem : v ∈ planted
    · cases hknown.symm.trans (hfit.leaves v hmem)
      exact .leaf hmem
    · exact hfit.right v hmem (ho v rfl) e hknown
  | @given memo v e hnew hr =>
    have hnot := hfit.not_planted hnew
    have hyields : (Snapshot.of f).Yields planted (.var v) e := .given hnot hr
    exact ⟨hyields, hfit.learn hnot hyields fun w hw => by simp [mem_direct, hr, Rule.operands] at hw⟩
  | @one memo memo₁ v x build e hnew hr hx ih =>
    have hnot := hfit.not_planted hnew
    obtain ⟨he, hfit₁⟩ := ih hscope hfit (hscope.of_operand (ho v rfl) hnot (by simp [hr, Rule.operands]))
    have hyields : (Snapshot.of f).Yields planted (.var v) (build e) := .one hnot hr he
    refine ⟨hyields, hfit₁.learn hnot hyields fun w hw => ?_⟩
    obtain rfl : .var w = x := by simpa [mem_direct, hr, Rule.operands] using hw
    exact hx.binds
  | @two memo memo₁ memo₂ v x y build a e hnew hr hx hy ihx ihy =>
    have hnot := hfit.not_planted hnew
    obtain ⟨ha, hfit₁⟩ := ihx hscope hfit (hscope.of_operand (ho v rfl) hnot (by simp [hr, Rule.operands]))
    obtain ⟨he, hfit₂⟩ := ihy hscope hfit₁ (hscope.of_operand (ho v rfl) hnot (by simp [hr, Rule.operands]))
    have hyields : (Snapshot.of f).Yields planted (.var v) (build a e) := .two hnot hr ha he
    refine ⟨hyields, hfit₂.learn hnot hyields fun w hw => ?_⟩
    have hw : Operand.var w = x ∨ Operand.var w = y := by simpa [mem_direct, hr, Rule.operands] using hw
    rcases hw with rfl | rfl
    · exact hy.grows.binds hx.binds
    · exact hy.binds
  | @cycle memo memo₁ memo₂ v l start next a e hnew hr hnext hstart ihn ihs =>
    have hnot := hfit.not_planted hnew
    -- the way back is asked for with one leaf more, in the scope of what lies behind the phi
    have hplant := hfit.plant hsep hscope (ho v rfl) hnew
    have hback : ∀ w, next = .var w → (Snapshot.of f).Behind (insert v planted) v w := fun w hw =>
      behind_next (by rw [back?, hr, hw]; rfl)
    obtain ⟨he, -⟩ := ihn closed_behind hplant hback
    obtain ⟨ha, hfit₂⟩ := ihs hscope hfit (hscope.of_operand (ho v rfl) hnot (by simp [hr, Rule.operands]))
    have hyields : (Snapshot.of f).Yields planted (.var v) ((Snapshot.of f).cycleExpr l v a e) := .cycle hnot hr he ha
    refine ⟨hyields, hfit₂.learn hnot hyields fun w hw => ?_⟩
    obtain rfl : .var w = start := by simpa [mem_direct, hr, Rule.operands] using hw
    exact hstart.binds

variable (hf : f.Valid) (hall : ∀ b, b < f.blocks.length → f.Live b)

include hf hall

/-- Between questions from the outside, a memo table fits with no leaf planted. -/
theorem exprOf_settles (hfit : (Snapshot.of f).Fits ∅ (fun _ => True) memo) (o : Operand) :
    ∃ e memo', (Snapshot.of f).exprOf o memo = some (e, memo') ∧ (Snapshot.of f).Yields ∅ o e ∧
      (Snapshot.of f).Fits ∅ (fun _ => True) memo' := by
  obtain ⟨e, memo', hq, h⟩ := exprOf_answers hf hall o memo
  exact ⟨e, memo', hq, h.settles hsep (fun _ _ _ _ _ => trivial) hfit fun _ _ => trivial⟩

end Valid

/-- The memo table after some questions, from one that is given, unless one of them has no answer. -/
def memoAfter? (s : Subject) : List Operand → (memo : Memo) → Option Memo
  | [], memo => some memo
  | o :: rest, memo => (s.exprOf o memo).bind fun p => memoAfter? s rest p.2

/-- The answer to a question that is asked after some others. -/
def answerAfter? (s : Subject) (asked : List Operand) (o : Operand) : Option SymExpr :=
  (s.memoAfter? asked {}).bind fun memo => (s.exprOf o memo).map Prod.fst

theorem fits_memoAfter? {f : Func} (hf : f.Valid) (hall : ∀ b, b < f.blocks.length → f.Live b)
    (hsep : (Snapshot.of f).entangled = []) (asked : List Operand) (hfit : (Snapshot.of f).Fits ∅ (fun _ => True) memo) :
    ∃ memo', (Snapshot.of f).memoAfter? asked memo = some memo' ∧ (Snapshot.of f).Fits ∅ (fun _ => True) memo' := by
  induction asked generalizing memo with
  | nil => exact ⟨memo, rfl, hfit⟩
  | cons o rest ih =>
    obtain ⟨e, memo₁, hq, -, hfit₁⟩ := exprOf_settles hsep hf hall hfit o
    obtain ⟨memo', hrest, hfit'⟩ := ih hfit₁
    exact ⟨memo', by rw [memoAfter?, hq, Option.bind_some, hrest], hfit'⟩

theorem answerAfter?_yields {f : Func} (hf : f.Valid) (hall : ∀ b, b < f.blocks.length → f.Live b)
    (hsep : (Snapshot.of f).entangled = []) (asked : List Operand) (o : Operand) :
    ∃ e, (Snapshot.of f).answerAfter? asked o = some e ∧ (Snapshot.of f).Yields ∅ o e := by
  have hempty : (Snapshot.of f).Fits ∅ (fun _ => True) ({} : Memo) := ⟨nofun, nofun, nofun⟩
  obtain ⟨memo, hmemo, hfit⟩ := fits_memoAfter? hf hall hsep asked hempty
  obtain ⟨e, memo', hq, hyields, -⟩ := exprOf_settles hsep hf hall hfit o
  exact ⟨e, by rw [answerAfter?, hmemo, Option.bind_some, hq, Option.map_some], hyields⟩

end Subject

/-- **The answer to a question does not depend on the questions before**, in a valid function without unreachable blocks
where no two header phis need each other to grow. -/
theorem Subject.exprOf_ignores_history (f : Func) (hvalid : f.isValid = true) (hall : f.unreachableBlocks = [])
    (hsep : (Snapshot.of f).entangled = []) (o : Operand) :
    ∃ e, ∀ asked, (Snapshot.of f).answerAfter? asked o = some e := by
  have hf := Func.isValid_iff.mp hvalid
  have hlive : ∀ b, b < f.blocks.length → f.Live b := fun b => Func.live_of_all_reachable hall
  obtain ⟨e, -, he⟩ := answerAfter?_yields hf hlive hsep [] o
  refine ⟨e, fun asked => ?_⟩
  obtain ⟨e', hanswer, he'⟩ := answerAfter?_yields hf hlive hsep asked o
  rw [hanswer, he'.unique he]

/-- Two loops, one in the other, where the inner one goes on from where the outer one has got to, and the outer one from
where the inner one ends. -/
def relayCount : Func where
  name := "relayCount"
  params := [0]
  blocks := [
    { term := .jump 1 },
    { instrs := [{ op := .phi 1 [(0, .lit (.int 0)), (3, .var 5)] }], term := .jump 2 },
    { instrs := [{ op := .phi 2 [(1, .var 1), (2, .var 3)] }, { op := .binary .add 3 (.var 2) (.lit (.int 1)) },
        { op := .binary .rem 4 (.var 3) (.lit (.int 8)) }],
      term := .branch (.var 4) 2 3 },
    { instrs := [{ op := .binary .add 5 (.var 3) (.lit (.int 2)) }, { op := .binary .lt 6 (.var 5) (.var 0) }],
      term := .branch (.var 6) 1 4 },
    { term := .ret [.var 5] }]

/-- The outer phi needs the inner one to grow, but the inner one does not need the outer one. -/
theorem relayCount_ignores_history :
    (Snapshot.of relayCount).entangled = [] ∧
      (Snapshot.of relayCount).answerAfter? [] (.var 2) = some (.recur (.leaf 1) (.const 1) 2) ∧
      (Snapshot.of relayCount).answerAfter? [.var 5, .var 1] (.var 2) = some (.recur (.leaf 1) (.const 1) 2) := by
  have hsep : (Snapshot.of relayCount).entangled = [] := by decide +kernel
  have hexpr : (Snapshot.of relayCount).answerAfter? [] (.var 2) = some (.recur (.leaf 1) (.const 1) 2) := by
    decide +kernel
  obtain ⟨e, he⟩ := Subject.exprOf_ignores_history relayCount (by decide +kernel) (by decide +kernel) hsep (.var 2)
  exact ⟨hsep, hexpr, (he [.var 5, .var 1]).trans ((he []).symm.trans hexpr)⟩

/-- Two counters of one loop, where the square of each is added to the growth of the other and taken off again. -/
def crossedGrowth : Func where
  name := "crossedGrowth"
  params := [0]
  blocks := [
    { term := .jump 1 },
    { instrs := [
        { op := .phi 1 [(0, .lit (.int 0)), (1, .var 3)] }, { op := .phi 2 [(0, .lit (.int 0)), (1, .var 4)] },
        { op := .binary .mul 5 (.var 2) (.var 2) }, { op := .binary .sub 6 (.var 5) (.var 5) },
        { op := .binary .add 7 (.var 1) (.lit (.int 1)) }, { op := .binary .add 3 (.var 7) (.var 6) },
        { op := .binary .mul 8 (.var 1) (.var 1) }, { op := .binary .sub 9 (.var 8) (.var 8) },
        { op := .binary .add 10 (.var 2) (.lit (.int 1)) }, { op := .binary .add 4 (.var 10) (.var 9) },
        { op := .binary .lt 11 (.var 3) (.var 0) }],
      term := .branch (.var 11) 1 2 },
    { term := .ret [.var 3] }]

/-- The condition is needed: the first counter is a leaf if it is asked for first, and a recurrence after the second. -/
theorem crossedGrowth_remembers :
    crossedGrowth.isValid = true ∧ crossedGrowth.unreachableBlocks = [] ∧
      (Snapshot.of crossedGrowth).entangled = [(1, 2), (2, 1)] ∧
      (Snapshot.of crossedGrowth).answerAfter? [] (.var 1) = some (.leaf 1) ∧
      (Snapshot.of crossedGrowth).answerAfter? [.var 2] (.var 1) = some (.recur (.const 0) (.const 1) 1) :=
  ⟨by decide +kernel, by decide +kernel, by decide +kernel, by decide +kernel, by decide +kernel⟩

end SsaFusion
