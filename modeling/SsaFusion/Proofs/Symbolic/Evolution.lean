import SsaFusion.Proofs.Symbolic.Answers

/-!
# The evolution of values

The analysis takes a recurrence for steady in a loop as soon as its header lies outside, whatever it starts with and
grows by. So it can be wrong about nested loops (`nestedDrift_misdescribed`). The careful analysis, which takes a
recurrence for a header phi only if nothing in it changes in the loop at any depth, is right about every value of every
run (`carefulExprOf?_describes`), and so is the analysis whenever the two agree (`exprOf_describes`). Being right is one of
the properties that pass on from what a definition reads to what it defines (`Hereditary`), and those hold of all that the
careful analysis answers.
-/

namespace SsaFusion

namespace Subject

variable (s : Subject)

/-! ## The careful analysis -/

/-- Whether what an atom reads is the same all through a run of a loop. -/
def isSteadyAtom (l : Loop) : Atom → Bool
  | .value v => s.isSteadyValue l v
  | .round h => !l.contains h

/-- The loop whose header has a value as a phi. -/
def headerLoop? (v : ValueId) : Option Loop :=
  match s.func.definition? v with
  | some (b, _, i) => if i.isPhi then (s.nest.loopOf b).filter (·.header == b) else none
  | none => none

/-- Whether a header phi is left alone, or nothing that its expression starts with and grows by changes in the loop. -/
def isCareful (v : ValueId) (e : SymExpr) : Bool :=
  match s.headerLoop? v with
  | none => true
  | some l =>
    match e with
    | .recur a step h =>
      if h = l.header then (a.atoms ++ step.atoms).all (s.isSteadyAtom l) else e.atoms.all (s.isSteadyAtom l)
    | e => e == .leaf v || e.atoms.all (s.isSteadyAtom l)

/-- The expression of a value, where a header phi whose recurrence is not steady throughout is left alone. -/
def carefulExpr : (depth : Nat) → ValueId → Query SymExpr
  | 0, _ => failure
  | k + 1, v => remember v do
    let e ← s.definitionExpr (carefulExpr k) v
    return if s.isCareful v e then e else .leaf v

/-- The careful expression of a value, with nothing known before. There is none if the definitions go round in a circle. -/
def carefulExprOf? (v : ValueId) : Option SymExpr := (s.carefulExpr s.depthBound v {}).map Prod.fst

end Subject

/-! ## Questions -/

namespace Query

variable {α β : Type}

/-- From a sound memo table, a question gives sound answers and leaves a sound memo table. -/
def Gives (sound : Memo → Prop) (q : Query α) (good : α → Prop) : Prop :=
  ∀ memo a memo', sound memo → q memo = some (a, memo') → good a ∧ sound memo'

variable {sound : Memo → Prop} {good : α → Prop}

theorem Gives.pure {a : α} (h : good a) : Gives sound (pure a : Query α) good := by
  intro memo a' memo' hm hq
  cases hq
  exact ⟨h, hm⟩

theorem Gives.bind {q : Query α} {k : α → Query β} {good' : β → Prop} (hq : Gives sound q good)
    (hk : ∀ a, good a → Gives sound (k a) good') : Gives sound (q >>= k) good' := by
  intro memo b memo' hm hb
  obtain ⟨⟨a, memo₁⟩, ha, hb⟩ := Option.bind_eq_some_iff.mp hb
  obtain ⟨hgood, hm₁⟩ := hq memo a memo₁ hm ha
  exact hk a hgood memo₁ b memo' hm₁ hb

theorem Gives.mono {q : Query α} {good' : α → Prop} (h : Gives sound q good) (hle : ∀ a, good a → good' a) :
    Gives sound q good' :=
  fun memo a memo' hm hq => (h memo a memo' hm hq).imp_left (hle a)

theorem Gives.get : Gives sound (get : Query Memo) sound := by
  intro memo a memo' hm hq
  cases hq
  exact ⟨hm, hm⟩

theorem Gives.set {memo : Memo} (h : sound memo) : Gives sound (set memo : Query PUnit) fun _ => True := by
  intro _ a memo' _ hq
  cases hq
  exact ⟨trivial, h⟩

end Query

/-! ## What passes on from definition to definition -/

/-- The operators that the analysis follows, on expressions. -/
def BinOp.join? : BinOp → Option (SymExpr → SymExpr → SymExpr)
  | add => some .plus
  | sub => some .minus
  | mul => some .times
  | _ => none

open Func (OperandHas) in
/-- A property of values and their expressions that passes on from what a definition reads to what it defines, by the rules
of the careful analysis. -/
structure Func.Hereditary (f : Func) (P : ValueId → SymExpr → Prop) : Prop where
  leaf : ∀ v, P v (.leaf v)
  unknown : ∀ v, P v .unknown
  assign : ∀ {b n v o c e}, f.instrAt? b n = some ⟨.assign v o, c⟩ → f.Live b → OperandHas P o e → P v e
  neg : ∀ {b n v o c e}, f.instrAt? b n = some ⟨.unary .neg v o, c⟩ → f.Live b → OperandHas P o e → P v e.negate
  binary : ∀ {b n op v x y c join e₁ e₂}, f.instrAt? b n = some ⟨.binary op v x y, c⟩ → f.Live b → op.join? = some join →
    OperandHas P x e₁ → OperandHas P y e₂ → P v (join e₁ e₂)
  recurrence : ∀ {l n i v sources start next a e}, l ∈ f.loops → f.instrAt? l.header n = some i → i.op = .phi v sources →
    Subject.splitSources l sources = some (start, next) → OperandHas P start a → OperandHas P next e →
    a.isKnown = true → (e.minus (.leaf v)).isKnown = true →
    (∀ x, x ∈ a.atoms ∨ x ∈ (e.minus (.leaf v)).atoms → f.Steady l x) →
    P v (SymExpr.recurrence a (e.minus (.leaf v)) l.header)

theorem Func.Hereditary.of_not_known {f : Func} {P : ValueId → SymExpr → Prop} (h : f.Hereditary P) {e : SymExpr}
    (hk : ¬e.isKnown = true) (v : ValueId) : P v e := by
  rw [Bool.not_eq_true, SymExpr.isKnown_eq_false] at hk
  exact hk ▸ h.unknown v

namespace Subject

variable {f : Func} {v : ValueId} {P : ValueId → SymExpr → Prop}

/-- All that a memo table holds has a property. -/
def Holds (P : ValueId → SymExpr → Prop) (memo : Memo) : Prop := ∀ v e, memo.get? v = some e → P v e

theorem Holds.insert {memo : Memo} (h : Holds P memo) {e : SymExpr} (he : P v e) : Holds P (memo.insert v e) := by
  intro w e' hw
  rw [Table.get?_insert] at hw
  split at hw
  · cases hw
    subst v
    exact he
  · exact h w e' hw

theorem remember_gives {answer : Query SymExpr} (h : Query.Gives (Holds P) answer (P v)) :
    Query.Gives (Holds P) (remember v answer) (P v) := by
  intro memo e memo' hm hq
  simp only [remember, get, getThe, MonadStateOf.get, StateT.get, StateT.bind, Bind.bind] at hq
  obtain ⟨⟨memo₀, memo₁⟩, hget, hq⟩ := Option.bind_eq_some_iff.mp hq
  cases hget
  simp only at hq
  cases hfound : memo.get? v with
  | some e₀ =>
    rw [hfound] at hq
    cases hq
    exact ⟨hm v _ hfound, hm⟩
  | none =>
    rw [hfound] at hq
    obtain ⟨⟨e₁, memo₁⟩, ha, hq⟩ := Option.bind_eq_some_iff.mp hq
    obtain ⟨he, hm₁⟩ := h memo e₁ memo₁ hm ha
    cases hq
    exact ⟨he, hm₁.insert he⟩

section Answers

variable {ask : ValueId → Query SymExpr} (hask : ∀ v, Query.Gives (Holds P) (ask v) (P v))

include hask

theorem operandExpr_gives (o : Operand) : Query.Gives (Holds P) (operandExpr ask o) (Func.OperandHas P o) := by
  cases o with
  | lit x => cases x <;> exact .pure rfl
  | var v => exact hask v

/-- What a recurrence is made of. The memo table that knows the phi as a leaf has the property too. -/
theorem recurrenceOf_gives (s : Subject) (l : Loop) (phi : ValueId) (start next : Operand) (hleaf : P phi (.leaf phi)) :
    Query.Gives (Holds P) (s.recurrenceOf ask l phi start next) fun found => ∀ e, found = some e →
      ∃ a e', Func.OperandHas P start a ∧ Func.OperandHas P next e' ∧ a.isKnown = true ∧
        (e'.minus (.leaf phi)).isKnown = true ∧ s.isSteady l a = true ∧
        e = SymExpr.recurrence a (e'.minus (.leaf phi)) l.header := by
  refine .bind .get fun saved hsaved => ?_
  refine .bind (.set (hsaved.insert hleaf)) fun _ _ => ?_
  refine .bind (operandExpr_gives hask next) fun e' he' => ?_
  refine .bind (.set hsaved) fun _ _ => ?_
  refine .bind (operandExpr_gives hask start) fun a ha => ?_
  split
  · rename_i hcond
    simp only [Bool.and_eq_true] at hcond
    refine .pure fun e he => ?_
    cases he
    exact ⟨a, e', ha, he', hcond.1.1.2, hcond.1.1.1, hcond.2, rfl⟩
  · exact .pure nofun

end Answers

/-! ## What the careful analysis passes on -/

theorem steady_of_isSteadyAtom (hn : f.defined.Nodup) {l : Loop} {x : Atom}
    (h : (Snapshot.of f).isSteadyAtom l x = true) : f.Steady l x := by
  cases x with
  | round t => simpa [isSteadyAtom, Loop.contains, Func.Steady] using h
  | value w =>
    simp only [isSteadyAtom, isSteadyValue] at h
    split at h
    · rename_i hsite
      exact Or.inl (Func.site?_eq_param_iff.mp hsite)
    · rename_i b n hsite
      obtain ⟨i, hi, hd⟩ := (Func.site?_eq_instr_iff hn).mp hsite
      exact Or.inr ⟨b, n, ⟨i, hi, hd⟩, by simpa [Loop.contains] using h⟩
    · cases h

theorem headerLoop?_of_phi (hn : f.defined.Nodup) {b : BlockId} {n : Nat} {i : Instr} (hi : f.instrAt? b n = some i)
    {sources : List (BlockId × Operand)} (hop : i.op = .phi v sources) {l : Loop}
    (hl : (Snapshot.of f).nest.loopOf b = some l) (hheader : l.header = b) :
    (Snapshot.of f).headerLoop? v = some l := by
  have hsite : (Snapshot.of f).func.site? v = some (.instr b n) :=
    (Func.site?_eq_instr_iff hn).mpr ⟨i, hi, by rw [Instr.dest?, hop]; rfl⟩
  have hi' : (Snapshot.of f).func.instrAt? b n = some i := hi
  have hphi : i.isPhi = true := by rw [Instr.isPhi, hop]; rfl
  simp [headerLoop?, Func.definition?, hsite, hi', hphi, hl, hheader]

/-- A careful recurrence has steady parts, unless the phi is left alone. -/
theorem steady_of_isCareful (hn : f.defined.Nodup) {l : Loop} (hl : l ∈ f.loops)
    (hloop : (Snapshot.of f).headerLoop? v = some l) {a step : SymExpr} (ha : (Snapshot.of f).isSteady l a = true)
    (hk : (SymExpr.recurrence a step l.header).isKnown = true)
    (h : (Snapshot.of f).isCareful v (SymExpr.recurrence a step l.header) = true) :
    SymExpr.recurrence a step l.header = .leaf v ∨ ∀ x, x ∈ a.atoms ∨ x ∈ step.atoms → f.Steady l x := by
  have hheader : l.contains l.header = true := by simpa [Loop.contains] using (isLoop_of_mem hl).header_mem
  have hparts : ∀ xs : List Atom, xs.all ((Snapshot.of f).isSteadyAtom l) = true → ∀ x ∈ xs, f.Steady l x :=
    fun xs hxs x hx => steady_of_isSteadyAtom hn (List.all_eq_true.mp hxs x hx)
  unfold SymExpr.recurrence at hk h ⊢
  split at hk
  · cases hk
  · rename_i hknown
    rw [if_neg hknown] at h ⊢
    split at h
    · -- without growth the expression is the start, which is not a recurrence of this loop
      rename_i hzero
      rw [if_pos hzero]
      have hsteady : a = .leaf v ∨ a.atoms.all ((Snapshot.of f).isSteadyAtom l) = true := by
        rw [isCareful, hloop] at h
        cases a with
        | recur a' step' t =>
          have hne : t ≠ l.header := fun e => by simp [isSteady, e, hheader] at ha
          simp only [if_neg hne] at h
          exact Or.inr h
        | const | unknown => exact Or.inr rfl
        | leaf | add | mul | quot => simpa [Bool.or_eq_true] using h
      refine hsteady.imp_right fun hsteady x hx => hparts _ hsteady x (hx.resolve_right ?_)
      rw [hzero]
      exact List.not_mem_nil
    · rename_i hgrows
      rw [isCareful, hloop] at h
      simp only [if_true] at h
      exact Or.inr fun x hx => hparts _ h x (List.mem_append.mpr hx)

section Hereditary

variable (h : f.Hereditary P)

include h

theorem leaf_gives : Query.Gives (Holds P) (pure (.leaf v) : Query SymExpr) fun e =>
    (Snapshot.of f).isCareful v e = true → P v e :=
  .pure fun _ => h.leaf v

/-- A phi gets an expression with the property, or one that is not careful. -/
theorem phiExpr_gives (hn : f.defined.Nodup) {ask : ValueId → Query SymExpr}
    (hask : ∀ v, Query.Gives (Holds P) (ask v) (P v)) {b : BlockId} {n : Nat} {i : Instr} (hi : f.instrAt? b n = some i)
    {sources : List (BlockId × Operand)} (hop : i.op = .phi v sources) :
    Query.Gives (Holds P) ((Snapshot.of f).phiExpr ask v b sources) fun e =>
      (Snapshot.of f).isCareful v e = true → P v e := by
  unfold phiExpr
  split
  · rename_i l hl
    split
    · rename_i hheader
      split
      · rename_i start next hsplit
        refine .bind (recurrenceOf_gives hask _ l v start next (h.leaf v)) fun found hfound => .pure fun hcareful => ?_
        cases found with
        | none => exact h.leaf v
        | some e =>
          obtain ⟨a, e', ha, he', hka, hks, hsteady, rfl⟩ := hfound e rfl
          have hmem := (Func.loopOf_eq_some.mp hl).1
          have hloop := headerLoop?_of_phi hn hi hop hl hheader
          subst hheader
          by_cases hk : (SymExpr.recurrence a (e'.minus (.leaf v)) l.header).isKnown = true
          · rcases steady_of_isCareful hn hmem hloop hsteady hk hcareful with hself | hparts
            · rw [Option.getD_some, hself]
              exact h.leaf v
            · exact h.recurrence hmem hi hop hsplit ha he' hka hks hparts
          · exact h.of_not_known hk v
      · exact leaf_gives h
    · exact leaf_gives h
  · exact leaf_gives h

/-- A definition gives an expression with the property, or one that is not careful. -/
theorem definitionExpr_gives (hn : f.defined.Nodup) (hall : ∀ b, b < f.blocks.length → f.Live b)
    {ask : ValueId → Query SymExpr} (hask : ∀ v, Query.Gives (Holds P) (ask v) (P v)) (v : ValueId) :
    Query.Gives (Holds P) ((Snapshot.of f).definitionExpr ask v) fun e => (Snapshot.of f).isCareful v e = true → P v e := by
  have hop := fun o => operandExpr_gives hask o
  unfold definitionExpr
  cases hsite : (Snapshot.of f).func.site? v with
  | none => exact .pure fun _ => h.unknown v
  | some site =>
    cases site with
    | param => exact leaf_gives h
    | instr b n =>
      obtain ⟨⟨op, c⟩, hi, hd⟩ := (Func.site?_eq_instr_iff hn).mp hsite
      have hlive : f.Live b := Func.DefinedAt.live ⟨_, hi, hd⟩ hall
      have hi' : (Snapshot.of f).func.instrAt? b n = some ⟨op, c⟩ := hi
      simp only [hi', Option.map_some]
      cases op with
      | assign d x =>
        cases hd
        exact (hop x).mono fun e he _ => h.assign hi hlive he
      | unary op d x =>
        cases hd
        cases op with
        | neg => exact .bind (hop x) fun e he => .pure fun _ => h.neg hi hlive he
        | not => exact leaf_gives h
      | binary op d x y =>
        cases hd
        cases op with
        | add | sub | mul =>
          exact .bind (hop x) fun e₁ h₁ => .bind (hop y) fun e₂ h₂ => .pure fun _ => h.binary hi hlive rfl h₁ h₂
        | _ => exact leaf_gives h
      | phi d sources =>
        cases hd
        exact phiExpr_gives h hn hask hi rfl
      | _ => exact leaf_gives h

theorem carefulExpr_gives (hn : f.defined.Nodup) (hall : ∀ b, b < f.blocks.length → f.Live b) (depth : Nat) (v : ValueId) :
    Query.Gives (Holds P) ((Snapshot.of f).carefulExpr depth v) (P v) := by
  induction depth generalizing v with
  | zero => exact fun memo e memo' _ hq => by cases hq
  | succ k ih =>
    refine remember_gives (.bind (definitionExpr_gives h hn hall ih v) fun e he => .pure ?_)
    split
    · exact he ‹_›
    · exact h.leaf v

/-- **What passes on from definition to definition holds of all careful expressions.** -/
theorem of_carefulExprOf? (hn : f.defined.Nodup) (hall : ∀ b, b < f.blocks.length → f.Live b) {e : SymExpr}
    (he : (Snapshot.of f).carefulExprOf? v = some e) : P v e := by
  obtain ⟨found, hq, rfl⟩ := Option.map_eq_some_iff.mp he
  exact (carefulExpr_gives h hn hall _ v {} found.1 found.2 nofun hq).1

end Hereditary

/-! ## The careful analysis is right -/

section Valid

variable {g : Gauge} {args : List Word} {limit : Nat} (hf : f.Valid) (hentry : f.phisAt f.entry = [])
  (hexact : f.ExactUpTo args limit g.modulus)

include hf hentry hexact

theorem hereditary_describes : f.Hereditary (f.Describes g args limit) where
  leaf := Func.describes_leaf
  unknown := Func.describes_unknown
  assign hi hb h := Func.describes_assign hf hentry hi hb (Func.describesOperand_of_has h)
  neg hi hb h := Func.describes_neg hf hentry hexact hi hb (Func.describesOperand_of_has h)
  binary := by
    intro b n op v x y c join e₁ e₂ hi hb hop h₁ h₂
    replace h₁ := Func.describesOperand_of_has h₁
    replace h₂ := Func.describesOperand_of_has h₂
    cases op <;> cases hop
    · exact Func.describes_binary hf hentry hexact hi hb h₁ h₂ (fun _ => rfl)
        (fun m a b ha hb => by simp [Machine.arithmetic?, ha, hb, Except.toOption]) (fun _ _ _ _ => Int.ModEq.add)
        SymExpr.plus_exactIn
    · exact Func.describes_binary hf hentry hexact hi hb h₁ h₂ (fun _ => rfl)
        (fun m a b ha hb => by simp [Machine.arithmetic?, ha, hb, Except.toOption]) (fun _ _ _ _ => Int.ModEq.sub)
        SymExpr.minus_exactIn
    · exact Func.describes_binary hf hentry hexact hi hb h₁ h₂ (fun _ => rfl)
        (fun m a b ha hb => by simp [Machine.arithmetic?, ha, hb, Except.toOption]) (fun _ _ _ _ => Int.ModEq.mul)
        SymExpr.times_exactIn
  recurrence hl hi hop hsplit ha he hka hks hsteady := Func.describes_header_phi hf hentry hl hi hop hsplit
    (Func.describesOperand_of_has ha) (Func.describesOperand_of_has he) hks hsteady hka

/-- **The careful analysis describes every value.** -/
theorem carefulExprOf?_describes (hall : ∀ b, b < f.blocks.length → f.Live b) {e : SymExpr}
    (h : (Snapshot.of f).carefulExprOf? v = some e) : f.Describes g args limit v e :=
  of_carefulExprOf? (hereditary_describes hf hentry hexact) hf.once hall h

end Valid

end Subject

/-- **The analysis describes run-time values wherever it is careful.** In a valid function without unreachable blocks
and without phis in the entry block, take any moment of any run and any value that was computed just then and is an
integer. The analysis has an answer for the value, whatever it has answered before. If that is a known expression and the
one of the careful analysis, then the value is that expression up to multiples of `2 ^ 64`, where leaves are read as the
values of the moment and recurrences by the rounds of the moment. The moments are those of the run: they end in what
it gives. -/
theorem Subject.exprOf_describes (f : Func) (hf : f.isValid = true) (hall : f.unreachableBlocks = [])
    (hentry : f.phisAt f.entry = []) (args : List Word) (limit k : Nat) (M : Moment)
    (hM : f.moment? args limit k = some M) (v : ValueId) (hv : v ∈ M.fresh) (n : Word)
    (hn : M.machine.env.get? v = some (.int n)) (memo : Memo) :
    f.EndsIn args limit (f.run args limit) ∧
      ∃ e memo', (Snapshot.of f).exprOf (.var v) memo = some (e, memo') ∧
        (e.isKnown = true → (Snapshot.of f).carefulExprOf? v = some e → ∀ r : Reading, M.Fits r →
          n.toInt ≡ e.eval r [ZMOD 2 ^ 64]) := by
  have hvalid := Func.isValid_iff.mp hf
  have hlive : ∀ b, b < f.blocks.length → f.Live b := fun b => Func.live_of_all_reachable hall
  have hav := Func.availableBefore_of_fresh hvalid.once hM hv
  obtain ⟨e, memo', hq, -⟩ := exprOf_answers hvalid hlive (.var v) memo
  refine ⟨Func.endsIn_run hM, e, memo', hq, fun hknown hcareful r hr => ?_⟩
  have hdescribes := carefulExprOf?_describes hvalid hentry (f.exactUpTo_word args limit) (g := .word) hlive hcareful
  exact hdescribes.right k M hM hav n.toInt (by rw [Moment.number?, hn]; rfl) hknown r hr.word

/-- The reading of a moment, where what is no integer is read as zero. -/
def Moment.reading (M : Moment) : Reading where
  value v := ((M.machine.env.get? v).bind fun d => d.int?.map Int64.toInt).getD 0
  rounds := M.rounds

theorem Moment.fits_reading (M : Moment) : M.Fits M.reading :=
  ⟨rfl, fun v n hv => by simp [reading, hv, Datum.int?]⟩

/-- Two loops, one in the other, where the inner one counts from where the outer one has got to. -/
def nestedCount : Func where
  name := "nestedCount"
  blocks := [
    { term := .jump 1 },
    { instrs := [{ op := .phi 0 [(0, .lit (.int 0)), (3, .var 1)] }], term := .jump 2 },
    { instrs := [{ op := .phi 2 [(1, .var 0), (2, .var 3)] }, { op := .binary .add 3 (.var 2) (.lit (.int 3)) },
        { op := .binary .lt 4 (.var 3) (.lit (.int 8)) }],
      term := .branch (.var 4) 2 3 },
    { instrs := [{ op := .binary .add 1 (.var 0) (.lit (.int 1)) }, { op := .binary .lt 5 (.var 1) (.lit (.int 3)) }],
      term := .branch (.var 5) 1 4 },
    { term := .ret [.var 2] }]

/-- In the second round of the outer loop and the third of the inner one, `1 + 2 * 3` is what the phi holds. -/
theorem nestedCount_exprOf_describes :
    ∃ M, nestedCount.moment? [] 100 21 = some M ∧ 2 ∈ M.fresh ∧ M.rounds 1 = 1 ∧ M.rounds 2 = 2 ∧
      M.machine.env.get? 2 = some (.int 7) ∧ nestedCount.EndsIn [] 100 (nestedCount.run [] 100) ∧
      ∃ memo', (Snapshot.of nestedCount).exprOf (.var 2) {} =
          some (.recur (.recur (.const 0) (.const 1) 1) (.const 3) 2, memo') ∧
        (7 : Word).toInt ≡ SymExpr.eval M.reading (.recur (.recur (.const 0) (.const 1) 1) (.const 3) 2)
          [ZMOD 2 ^ 64] := by
  have hexpr : ((Snapshot.of nestedCount).exprOf (.var 2) {}).map Prod.fst =
      some (.recur (.recur (.const 0) (.const 1) 1) (.const 3) 2) := by decide +kernel
  have hcareful : (Snapshot.of nestedCount).carefulExprOf? 2 =
      some (.recur (.recur (.const 0) (.const 1) 1) (.const 3) 2) := by decide +kernel
  have hmoment : ((nestedCount.moment? [] 100 21).map fun M =>
      (M.fresh, M.rounds 1, M.rounds 2, M.machine.env.get? 2)) = some ([2], 1, 2, some (.int 7)) := by decide +kernel
  obtain ⟨M, hM, hfacts⟩ := Option.map_eq_some_iff.mp hmoment
  simp only [Prod.mk.injEq] at hfacts
  obtain ⟨hfresh, hone, htwo, henv⟩ := hfacts
  have hv : 2 ∈ M.fresh := by simp [hfresh]
  obtain ⟨hends, e, memo', hq, hvalue⟩ :=
    Subject.exprOf_describes nestedCount (by decide) (by decide) (by decide) [] 100 21 M hM 2 hv 7 henv {}
  rw [hq, Option.map_some, Option.some.injEq] at hexpr
  subst hexpr
  exact ⟨M, hM, hv, hone, htwo, henv, hends, memo', hq, hvalue rfl hcareful M.reading M.fits_reading⟩

/-- Two loops, one in the other, where a value of the inner loop makes what the inner loop adds change. -/
def nestedDrift : Func where
  name := "nestedDrift"
  blocks := [
    { term := .jump 1 },
    { instrs := [{ op := .phi 0 [(0, .lit (.int 0)), (3, .var 1)] }], term := .jump 2 },
    { instrs := [{ op := .phi 2 [(1, .lit (.int 0)), (2, .var 3)] }, { op := .phi 4 [(1, .lit (.int 0)), (2, .var 5)] },
        { op := .binary .div 6 (.var 2) (.lit (.int 1)) }, { op := .binary .add 7 (.var 6) (.var 0) },
        { op := .binary .add 5 (.var 4) (.var 7) }, { op := .binary .add 3 (.var 2) (.lit (.int 1)) },
        { op := .binary .lt 8 (.var 3) (.lit (.int 3)) }],
      term := .branch (.var 8) 2 3 },
    { instrs := [{ op := .binary .add 1 (.var 0) (.lit (.int 1)) }, { op := .binary .lt 9 (.var 1) (.lit (.int 1)) }],
      term := .branch (.var 9) 1 4 },
    { term := .ret [.var 4, .var 6, .var 0] }]

/-- Carefulness is needed: in the third round of the inner loop the phi holds `0 + 1`, and the expression `2 * 1`. -/
theorem nestedDrift_misdescribed :
    nestedDrift.isValid = true ∧ nestedDrift.unreachableBlocks = [] ∧ nestedDrift.phisAt nestedDrift.entry = [] ∧
      ((Snapshot.of nestedDrift).exprOf (.var 4) {}).map Prod.fst =
        some (.recur (.const 0) (.recur (.leaf 6) (.const 1) 1) 2) ∧
      ∃ M, nestedDrift.moment? [] 100 14 = some M ∧ 4 ∈ M.fresh ∧ M.machine.env.get? 4 = some (.int 1) ∧
        M.Fits M.reading ∧
        ¬(1 : Word).toInt ≡ SymExpr.eval M.reading (.recur (.const 0) (.recur (.leaf 6) (.const 1) 1) 2)
          [ZMOD 2 ^ 64] := by
  have hexpr : ((Snapshot.of nestedDrift).exprOf (.var 4) {}).map Prod.fst =
      some (.recur (.const 0) (.recur (.leaf 6) (.const 1) 1) 2) := by decide +kernel
  have hmoment : ((nestedDrift.moment? [] 100 14).map fun M =>
      (M.fresh, M.rounds 1, M.rounds 2, M.machine.env.get? 4, M.machine.env.get? 6)) =
        some ([2, 4], 0, 2, some (.int 1), some (.int 1)) := by decide +kernel
  obtain ⟨M, hM, hfacts⟩ := Option.map_eq_some_iff.mp hmoment
  simp only [Prod.mk.injEq] at hfacts
  obtain ⟨hfresh, hone, htwo, henv, hleaf⟩ := hfacts
  refine ⟨by decide, by decide, by decide, hexpr, M, hM, by simp [hfresh], henv, M.fits_reading, ?_⟩
  have hvalue : SymExpr.eval M.reading (.recur (.const 0) (.recur (.leaf 6) (.const 1) 1) 2) = 2 := by
    simp [SymExpr.eval, SymExpr.evalIn, Reading.valuation, Moment.reading, hone, htwo, hleaf, Datum.int?]
  rw [hvalue]
  decide

end SsaFusion
