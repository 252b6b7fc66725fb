import Mathlib.Data.Finset.Insert
import SsaFusion.Proofs.Flow.Dominance
import SsaFusion.Symbolic.Evolution

/-!
# Expressions without a memo table

The definition of a value gives a `Rule`, which says from the expressions of which operands its expression is built
(`definitionExpr_eq`). The rules alone say what the expression of a value is while some header phis are taken as leaves:
`Yields planted o e`. There is at most one such expression (`Yields.unique`), and it is the same if one more header phi is
taken as a leaf that the operand does not need (`Yields.plant`).
-/

namespace SsaFusion

/-- How the expression of a value comes from the expressions of operands. -/
inductive Rule where
  | given (e : SymExpr)
  | one (x : Operand) (build : SymExpr → SymExpr)
  | two (x y : Operand) (build : SymExpr → SymExpr → SymExpr)
  /-- A header phi: its value on the way back is expressed with the phi as a leaf. -/
  | cycle (l : Loop) (start next : Operand)

namespace Rule

/-- The operands that are expressed with the same leaves as the value. -/
def operands : Rule → List Operand
  | given _ => []
  | one x _ => [x]
  | two x y _ => [x, y]
  | cycle _ start _ => [start]

/-- The operand that is expressed with one leaf more. -/
def next? : Rule → Option Operand
  | cycle _ _ next => some next
  | _ => none

end Rule

namespace Subject

variable (s : Subject)

/-! ## Rules -/

/-- The rule of a phi in a block. -/
def phiRule (phi : ValueId) (block : BlockId) (sources : List (BlockId × Operand)) : Rule :=
  match s.nest.loopOf block with
  | some l =>
    if l.header = block then
      match splitSources l sources with
      | some (start, next) => .cycle l start next
      | none => .given (.leaf phi)
    else .given (.leaf phi)
  | none => .given (.leaf phi)

/-- The rule of a value that an operation in a block defines. -/
def opRule (v : ValueId) (block : BlockId) : Op → Rule
  | .assign _ x => .one x id
  | .unary .neg _ x => .one x SymExpr.negate
  | .binary .add _ x y => .two x y SymExpr.plus
  | .binary .sub _ x y => .two x y SymExpr.minus
  | .binary .mul _ x y => .two x y SymExpr.times
  | .phi _ sources => s.phiRule v block sources
  | _ => .given (.leaf v)

/-- The rule of a value. -/
def rule (v : ValueId) : Rule :=
  match s.func.site? v with
  | none => .given .unknown
  | some .param => .given (.leaf v)
  | some (.instr b n) =>
    match s.func.instrAt? b n with
    | some i => s.opRule v b i.op
    | none => .given (.leaf v)

/-- The expression of a header phi that starts with one expression and comes back as another. -/
def cycleExpr (l : Loop) (phi : ValueId) (start next : SymExpr) : SymExpr :=
  let step := next.minus (.leaf phi)
  if step.isKnown && start.isKnown && s.isSteady l step && s.isSteady l start then
    SymExpr.recurrence start step l.header
  else .leaf phi

/-- The question that a rule asks for a value. -/
def follow (ask : ValueId → Query SymExpr) (v : ValueId) : Rule → Query SymExpr
  | .given e => pure e
  | .one x build => return build (← operandExpr ask x)
  | .two x y build => return build (← operandExpr ask x) (← operandExpr ask y)
  | .cycle l start next => do
    let saved ← get
    set (saved.insert v (.leaf v))
    let next ← operandExpr ask next
    set saved
    return s.cycleExpr l v (← operandExpr ask start) next

variable {s} {ask : ValueId → Query SymExpr} {v : ValueId}

theorem phiExpr_eq {b : BlockId} {sources : List (BlockId × Operand)} :
    s.phiExpr ask v b sources = s.follow ask v (s.phiRule v b sources) := by
  unfold phiExpr phiRule
  cases s.nest.loopOf b with
  | none => rfl
  | some l =>
    by_cases h : l.header = b
    · simp only [if_pos h]
      cases splitSources l sources with
      | none => rfl
      | some ends =>
        simp only [recurrenceOf, follow, bind_assoc]
        refine bind_congr fun saved => bind_congr fun _ => bind_congr fun next => bind_congr fun _ => ?_
        refine bind_congr fun start => ?_
        unfold cycleExpr
        split
        · rename_i hc
          simp only [pure_bind, Option.getD_some, if_pos hc]
        · rename_i hc
          simp only [pure_bind, Option.getD_none, if_neg hc]
    · simp only [if_neg h]
      rfl

/-- A definition is followed by its rule. -/
theorem definitionExpr_eq : s.definitionExpr ask v = s.follow ask v (s.rule v) := by
  unfold definitionExpr rule
  cases s.func.site? v with
  | none => rfl
  | some site =>
    cases site with
    | param => rfl
    | instr b n =>
      dsimp only
      cases s.func.instrAt? b n with
      | none => rfl
      | some i =>
        obtain ⟨op, _⟩ := i
        cases op with
        | assign d x => exact (bind_pure _).symm
        | unary op d x => cases op <;> rfl
        | binary op d x y => cases op <;> rfl
        | phi d sources => exact phiExpr_eq
        | _ => rfl

/-- The rule of a phi, unless it is left alone, is that of a header phi with one operand from outside the loop. -/
theorem phiRule_cases (v : ValueId) (b : BlockId) (sources : List (BlockId × Operand)) :
    s.phiRule v b sources = .given (.leaf v) ∨ ∃ l start next, s.nest.loopOf b = some l ∧ l.header = b ∧
      splitSources l sources = some (start, next) ∧ s.phiRule v b sources = .cycle l start next := by
  unfold phiRule
  cases s.nest.loopOf b with
  | none => exact Or.inl rfl
  | some l =>
    by_cases h : l.header = b
    · simp only [if_pos h]
      cases hsplit : splitSources l sources with
      | none => exact Or.inl rfl
      | some ends => exact Or.inr ⟨l, ends.1, ends.2, rfl, h, hsplit, rfl⟩
    · exact Or.inl (if_neg h)

/-- The rule of an operation that is no phi asks for some of its operands, with no leaf more. -/
theorem opRule_of_not_phi {op : Op} (h : op.isPhi = false) (b : BlockId) :
    (s.opRule v b op).next? = none ∧ ∀ x ∈ (s.opRule v b op).operands, x ∈ op.operands := by
  cases op with
  | phi d sources => cases h
  | unary op d x => cases op <;> simp [opRule, Rule.next?, Rule.operands, Op.operands]
  | binary op d x y => cases op <;> simp [opRule, Rule.next?, Rule.operands, Op.operands]
  | _ => simp [opRule, Rule.next?, Rule.operands, Op.operands]

/-! ### Following a rule from a memo table -/

variable {memo : Memo} {a e : SymExpr} {x y : Operand}

theorem follow_one (build : SymExpr → SymExpr) :
    s.follow ask v (.one x build) memo = (operandExpr ask x memo).map fun p => (build p.1, p.2) := by
  simp only [follow, bind, StateT.bind]
  cases operandExpr ask x memo <;> rfl

theorem follow_two (build : SymExpr → SymExpr → SymExpr) :
    s.follow ask v (.two x y build) memo =
      (operandExpr ask x memo).bind fun p => (operandExpr ask y p.2).map fun q => (build p.1 q.1, q.2) := by
  simp only [follow, bind, StateT.bind]
  cases operandExpr ask x memo with
  | none => rfl
  | some p =>
    simp only [Option.bind_some]
    cases operandExpr ask y p.2 <;> rfl

/-- The start is asked for with the table from before the value was planted. -/
theorem follow_cycle {l : Loop} {start next : Operand} :
    s.follow ask v (.cycle l start next) memo =
      (operandExpr ask next (memo.insert v (.leaf v))).bind fun p =>
        (operandExpr ask start memo).map fun q => (s.cycleExpr l v q.1 p.1, q.2) := by
  show (operandExpr ask next (memo.insert v (.leaf v))).bind (fun p => (operandExpr ask start memo).bind _) = _
  cases operandExpr ask next (memo.insert v (.leaf v)) with
  | none => rfl
  | some p =>
    simp only [Option.bind_some]
    cases operandExpr ask start memo <;> rfl

theorem remember_known {q : Query SymExpr} (h : memo.get? v = some e) : remember v q memo = some (e, memo) := by
  simp only [remember, bind, StateT.bind, get, getThe, MonadStateOf.get, StateT.get, Option.pure_def, Option.bind_some, h]
  rfl

theorem remember_new {q : Query SymExpr} (h : memo.get? v = none) :
    remember v q memo = (q memo).map fun p => (p.1, p.2.insert v p.1) := by
  simp only [remember, bind, StateT.bind, get, getThe, MonadStateOf.get, StateT.get, Option.pure_def, Option.bind_some, h]
  show (q memo).bind _ = _
  cases q memo <;> rfl

/-! ## What a value needs -/

variable (s)

/-- The values whose expressions a value is built from. -/
def direct (v : ValueId) : List ValueId := valuesOf (s.rule v).operands

theorem mem_direct {w : ValueId} : w ∈ s.direct v ↔ .var w ∈ (s.rule v).operands := by
  rw [direct, valuesOf, List.mem_filterMap]
  constructor
  · rintro ⟨o, ho, hw⟩
    cases o <;> cases hw
    exact ho
  · exact fun h => ⟨_, h, rfl⟩

/-- The value that a header phi comes back as. -/
def back? (v : ValueId) : Option ValueId := (s.rule v).next?.bind Operand.var?

/-- The values that are asked for to express a value. -/
def needs (v : ValueId) : List ValueId := s.direct v ++ (s.back? v).toList

/-! ## The expression while some header phis are leaves -/

/-- The expression of an operand by the rules alone, while some values are taken as leaves. -/
inductive Yields : Finset ValueId → Operand → SymExpr → Prop
  | int (planted : Finset ValueId) (n : Word) : Yields planted (.lit (.int n)) (.const n)
  | bool (planted : Finset ValueId) (b : Bool) : Yields planted (.lit (.bool b)) .unknown
  | leaf {planted : Finset ValueId} {v : ValueId} (h : v ∈ planted) : Yields planted (.var v) (.leaf v)
  | given {planted : Finset ValueId} {v : ValueId} {e : SymExpr} (h : v ∉ planted) (hr : s.rule v = .given e) :
    Yields planted (.var v) e
  | one {planted : Finset ValueId} {v : ValueId} {x : Operand} {build : SymExpr → SymExpr} {e : SymExpr} (h : v ∉ planted)
    (hr : s.rule v = .one x build) (hx : Yields planted x e) : Yields planted (.var v) (build e)
  | two {planted : Finset ValueId} {v : ValueId} {x y : Operand} {build : SymExpr → SymExpr → SymExpr} {a e : SymExpr}
    (h : v ∉ planted) (hr : s.rule v = .two x y build) (hx : Yields planted x a) (hy : Yields planted y e) :
    Yields planted (.var v) (build a e)
  | cycle {planted : Finset ValueId} {v : ValueId} {l : Loop} {start next : Operand} {a e : SymExpr} (h : v ∉ planted)
    (hr : s.rule v = .cycle l start next) (hnext : Yields (insert v planted) next e) (hstart : Yields planted start a) :
    Yields planted (.var v) (s.cycleExpr l v a e)

variable {s} {planted : Finset ValueId} {o : Operand}

/-- What the rule of a value says about its expression. -/
theorem Yields.inv (h : s.Yields planted (.var v) e) (hv : v ∉ planted) :
    match s.rule v with
    | .given e' => e = e'
    | .one x build => ∃ e', s.Yields planted x e' ∧ e = build e'
    | .two x y build => ∃ a e', s.Yields planted x a ∧ s.Yields planted y e' ∧ e = build a e'
    | .cycle l start next => ∃ a e', s.Yields (insert v planted) next e' ∧ s.Yields planted start a ∧
        e = s.cycleExpr l v a e' := by
  cases h with
  | leaf h => exact absurd h hv
  | given _ hr => rw [hr]
  | one _ hr hx =>
    rw [hr]
    exact ⟨_, hx, rfl⟩
  | two _ hr hx hy =>
    rw [hr]
    exact ⟨_, _, hx, hy, rfl⟩
  | cycle _ hr hnext hstart =>
    rw [hr]
    exact ⟨_, _, hnext, hstart, rfl⟩

/-- **An operand has at most one expression.** -/
theorem Yields.unique (h : s.Yields planted o e) {e' : SymExpr} (h' : s.Yields planted o e') : e = e' := by
  induction h generalizing e' with
  | int => cases h'; rfl
  | bool => cases h'; rfl
  | leaf hv =>
    cases h' with
    | leaf => rfl
    | given h | one h | two h | cycle h => exact absurd hv h
  | given hv hr =>
    have := h'.inv hv
    rw [hr] at this
    exact this.symm
  | one hv hr _ ih =>
    have := h'.inv hv
    rw [hr] at this
    obtain ⟨e₁, h₁, rfl⟩ := this
    rw [ih h₁]
  | two hv hr _ _ ihx ihy =>
    have := h'.inv hv
    rw [hr] at this
    obtain ⟨a₁, e₁, ha, he, rfl⟩ := this
    rw [ihx ha, ihy he]
  | cycle hv hr _ _ ihn ihs =>
    have := h'.inv hv
    rw [hr] at this
    obtain ⟨a₁, e₁, he, ha, rfl⟩ := this
    rw [ihn he, ihs ha]

theorem mem_needs_of_operand (hx : x ∈ (s.rule v).operands) {w : ValueId} (hw : x = .var w) : w ∈ s.needs v := by
  subst hw
  exact List.mem_append_left _ (s.mem_direct.mpr hx)

theorem mem_needs_of_next {next : Operand} (hx : (s.rule v).next? = some next) {w : ValueId} (hw : next = .var w) :
    w ∈ s.needs v := by
  subst hw
  refine List.mem_append_right _ ?_
  rw [back?, hx]
  exact List.mem_singleton_self w

/-- **Taking one value more as a leaf changes nothing for what does not need it.** -/
theorem Yields.plant (h : s.Yields planted o e) {p : ValueId}
    (hp : ∀ w, o = .var w → ¬Reaches s.needs (· ∉ planted) w p) : s.Yields (insert p planted) o e := by
  have fresh : ∀ {planted : Finset ValueId} {v : ValueId}, v ∉ planted →
      (∀ w, Operand.var v = .var w → ¬Reaches s.needs (· ∉ planted) w p) → v ∉ insert p planted := by
    intro planted v hv hp hmem
    rcases Finset.mem_insert.mp hmem with rfl | hmem
    · exact hp v rfl (.refl hv)
    · exact hv hmem
  -- what a needed operand needs is needed
  have below : ∀ {planted : Finset ValueId} {v w : ValueId}, v ∉ planted → w ∈ s.needs v →
      (∀ w, Operand.var v = .var w → ¬Reaches s.needs (· ∉ planted) w p) → ¬Reaches s.needs (· ∉ planted) w p :=
    fun hv hw hp hr => hp _ rfl (.head hv hw hr)
  induction h with
  | int => exact .int _ _
  | bool => exact .bool _ _
  | leaf hv => exact .leaf (Finset.mem_insert_of_mem hv)
  | given hv hr => exact .given (fresh hv hp) hr
  | one hv hr _ ih =>
    refine .one (fresh hv hp) hr (ih fun w hw => below hv (mem_needs_of_operand ?_ hw) hp)
    simp [hr, Rule.operands]
  | two hv hr _ _ ihx ihy =>
    refine .two (fresh hv hp) hr (ihx fun w hw => below hv (mem_needs_of_operand ?_ hw) hp)
      (ihy fun w hw => below hv (mem_needs_of_operand ?_ hw) hp)
    · simp [hr, Rule.operands]
    · simp [hr, Rule.operands]
  | @cycle planted v l start next a e hv hr _ _ ihn ihs =>
    refine .cycle (fresh hv hp) hr ?_ (ihs fun w hw => below hv (mem_needs_of_operand ?_ hw) hp)
    · rw [Finset.insert_comm]
      refine ihn fun w hw hreach => ?_
      refine below hv (mem_needs_of_next (by rw [hr]; rfl) hw) hp (hreach.mono fun z hz => ?_)
      exact fun hmem => hz (Finset.mem_insert_of_mem hmem)
    · simp [hr, Rule.operands]

end Subject

end SsaFusion
