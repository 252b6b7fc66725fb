import SsaFusion.Fusion.Dependence
import SsaFusion.Proofs.Symbolic.Memo

/-!
# Recursions on definitions end

Three recursions go from a value to the values that it is defined from: its expression, which may come back to a header
phi (`Answers`), the base of an address (`Follows`), and whether a loop repeats the value (`Decides`). The relations are
the recursions with no bound on their depth. A derivation is finite, so that it says that the recursion ends, and what
with. The bounded definitions have a result just when there is one, in every function: no path that leads to no circle is
longer than the function (`locationOf_eq_some_iff`, `isRepeated?_eq_some_iff`). In a valid function without unreachable
blocks there is always one (`recursions_end`), as values are followed to values that are defined earlier.
-/

namespace SsaFusion

/-- An address that an operation gives is not followed back from there. -/
def Op.hidesAddress : Op → Bool
  | .shift _ _ _ | .assign _ (.var _) | .alloc _ _ => false
  | _ => true

namespace Snapshot

/-! ## The recursions without a bound -/

/-- Where an address leads from a value and a number of cells on, and the memo table after that. -/
inductive Follows (s : Snapshot) : ValueId → SymExpr → Memo → Option Location → Memo → Prop
  | shift {v d w : ValueId} {cells : Operand} {offset e : SymExpr} {memo memo₁ memo₂ : Memo} {r : Option Location}
    (hop : s.func.definingOp? v = some (.shift d (.var w) cells)) (hcells : s.Answers cells memo e memo₁)
    (hbase : Follows s w (offset.plus e) memo₁ r memo₂) : Follows s v offset memo r memo₂
  | shiftLit {v d : ValueId} {x : Literal} {cells : Operand} {offset e : SymExpr} {memo memo₁ : Memo}
    (hop : s.func.definingOp? v = some (.shift d (.lit x) cells)) (hcells : s.Answers cells memo e memo₁) :
    Follows s v offset memo none memo₁
  | copy {v d w : ValueId} {offset : SymExpr} {memo memo₁ : Memo} {r : Option Location}
    (hop : s.func.definingOp? v = some (.assign d (.var w))) (hsource : Follows s w offset memo r memo₁) :
    Follows s v offset memo r memo₁
  | array {v d : ValueId} {size : Nat} {offset : SymExpr} {memo : Memo}
    (hop : s.func.definingOp? v = some (.alloc d size)) :
    Follows s v offset memo (if offset.isKnown then some ⟨v, true, offset⟩ else none) memo
  | root {v : ValueId} {offset : SymExpr} {memo : Memo} (hop : s.func.definingOp? v = none) :
    Follows s v offset memo (if s.func.params.contains v && offset.isKnown then some ⟨v, false, offset⟩ else none) memo
  | hidden {v : ValueId} {op : Op} {offset : SymExpr} {memo : Memo} (hop : s.func.definingOp? v = some op)
    (hhides : op.hidesAddress = true) : Follows s v offset memo none memo

/-- Whether a loop repeats a value. All operands of a pure instruction are decided, so that their order does not matter. -/
inductive Decides (s : Snapshot) (l : Loop) : ValueId → Bool → Prop
  | outside {v : ValueId} (hout : s.definedIn l v = false) : Decides s l v true
  | undefined {v : ValueId} (hin : s.definedIn l v = true) (hdef : s.func.definition? v = none) : Decides s l v false
  | impure {v : ValueId} {b : BlockId} {n : Nat} {i : Instr} (hin : s.definedIn l v = true)
    (hdef : s.func.definition? v = some (b, n, i)) (himpure : i.isPure = false) : Decides s l v false
  | pure {v : ValueId} {b : BlockId} {n : Nat} {i : Instr} {repeated : ValueId → Bool} (hin : s.definedIn l v = true)
    (hdef : s.func.definition? v = some (b, n, i)) (hpure : i.isPure = true)
    (huses : ∀ x ∈ i.uses, Decides s l x (repeated x)) : Decides s l v (i.uses.all repeated)

/-! ## The bounded recursions find what they lead to -/

section Bounds

variable {s : Snapshot} {l : Loop} {v x : ValueId} {offset : SymExpr} {memo memo' : Memo} {r : Option Location} {b : Bool}
  {k : Nat}

/-- The value that an address is a copy of or is counted from. -/
def sources (s : Snapshot) (v : ValueId) : List ValueId :=
  match s.func.definingOp? v with
  | some (.shift _ (.var w) _) | some (.assign _ (.var w)) => [w]
  | _ => []

/-- The values that have to be decided first to decide whether a loop repeats a value. -/
def inputs (s : Snapshot) (l : Loop) (v : ValueId) : List ValueId :=
  if s.definedIn l v then
    match s.func.definition? v with
    | some (_, _, i) => if i.isPure then i.uses else []
    | none => []
  else []

/-- A value with sources is defined by an operation other than a phi that reads them. -/
theorem operand_of_mem_sources (h : x ∈ s.sources v) :
    ∃ op, s.func.definingOp? v = some op ∧ op.isPhi = false ∧ .var x ∈ op.operands := by
  unfold sources at h
  split at h
  · rename_i hop
    obtain rfl := List.mem_singleton.mp h
    exact ⟨_, hop, rfl, by simp [Op.operands]⟩
  · rename_i hop
    obtain rfl := List.mem_singleton.mp h
    exact ⟨_, hop, rfl, by simp [Op.operands]⟩
  · cases h

/-- A value with inputs is defined by an operation other than a phi that reads them. -/
theorem operand_of_mem_inputs (h : x ∈ s.inputs l v) :
    ∃ op, s.func.definingOp? v = some op ∧ op.isPhi = false ∧ .var x ∈ op.operands := by
  unfold inputs at h
  split at h
  · split at h
    · rename_i i hdef
      split at h
      · rename_i hpure
        refine ⟨i.op, by rw [Func.definingOp?, hdef]; rfl, i.op.isPhi_of_isPure hpure, ?_⟩
        have hread : x ∈ i.reads := by simpa [Instr.uses] using h
        obtain ⟨o, ho, hx⟩ := List.mem_filterMap.mp hread
        cases o <;> cases hx
        exact ho
      · cases h
    · cases h
  · cases h

theorem mem_dests_of_definingOp? {op : Op} (h : s.func.definingOp? v = some op) : v ∈ s.func.dests := by
  obtain ⟨⟨c, n, i⟩, hdef, -⟩ := Option.map_eq_some_iff.mp h
  exact Func.DefinedAt.mem_dests ⟨i, Func.instrAt?_of_definition? hdef⟩

theorem height_lt_instrs {next : ValueId → List ValueId} : height next s.func.dests v < s.func.instrs.length + 1 :=
  Nat.lt_succ_of_le (Nat.le_trans height_le (List.length_filterMap_le _ _))

/-! ### Addresses -/

theorem follows_of_followAddress (h : s.followAddress k v offset memo = some (r, memo')) :
    s.Follows v offset memo r memo' := by
  induction k generalizing v offset memo with
  | zero => cases h
  | succ k ih =>
    cases hop : s.func.definingOp? v with
    | none =>
      simp only [followAddress, hop] at h
      obtain ⟨rfl, rfl⟩ := Query.pure_eq_some_iff.mp h
      exact .root hop
    | some op =>
      cases op with
      | shift d base cells =>
        simp only [followAddress, hop] at h
        obtain ⟨e, memo₁, hcells, h⟩ := Query.bind_eq_some_iff.mp h
        have hcells := Subject.exprOf_eq_some_iff.mp hcells
        cases base with
        | lit x =>
          obtain ⟨rfl, rfl⟩ := Query.pure_eq_some_iff.mp h
          exact .shiftLit hop hcells
        | var w => exact .shift hop hcells (ih h)
      | assign d x =>
        simp only [followAddress, hop] at h
        cases x with
        | lit x =>
          obtain ⟨rfl, rfl⟩ := Query.pure_eq_some_iff.mp h
          exact .hidden hop rfl
        | var w => exact .copy hop (ih h)
      | alloc d size =>
        simp only [followAddress, hop] at h
        obtain ⟨rfl, rfl⟩ := Query.pure_eq_some_iff.mp h
        exact .array hop
      | _ =>
        simp only [followAddress, hop] at h
        obtain ⟨rfl, rfl⟩ := Query.pure_eq_some_iff.mp h
        exact .hidden hop rfl

theorem Follows.grounded (h : s.Follows v offset memo r memo') : Grounded s.sources v := by
  refine grounded_iff.mpr fun w hw => ?_
  induction h generalizing w with
  | shift hop _ _ ih | copy hop _ ih =>
    rw [sources, hop] at hw
    obtain rfl := List.mem_singleton.mp hw
    exact grounded_iff.mpr ih
  | shiftLit hop | array hop | root hop =>
    rw [sources, hop] at hw
    cases hw
  | @hidden v op _ _ hop hhides =>
    rw [sources, hop] at hw
    cases op with
    | shift => cases hhides
    | assign d x =>
      cases x with
      | var w => cases hhides
      | lit x => cases hw
    | _ => cases hw

/-- **A recursion that is deep enough finds where an address leads.** -/
theorem Follows.found (h : s.Follows v offset memo r memo') (hk : height s.sources s.func.dests v < k) :
    s.followAddress k v offset memo = some (r, memo') := by
  have hground := h.grounded
  induction h generalizing k with
  | @shift v d w cells offset e memo memo₁ memo₂ r hop hcells _ ih =>
    obtain ⟨k, rfl⟩ : ∃ j, k = j + 1 := ⟨k - 1, by omega⟩
    have hw : w ∈ s.sources v := by rw [sources, hop]; exact List.mem_singleton_self w
    have := height_lt hground (mem_dests_of_definingOp? hop) hw
    simp only [followAddress, hop]
    exact Query.bind_eq_some_iff.mpr ⟨e, memo₁, Subject.exprOf_eq_some_iff.mpr hcells,
      ih (by omega) (grounded_iff.mp hground w hw)⟩
  | @shiftLit v d x cells offset e memo memo₁ hop hcells =>
    obtain ⟨k, rfl⟩ : ∃ j, k = j + 1 := ⟨k - 1, by omega⟩
    simp only [followAddress, hop]
    exact Query.bind_eq_some_iff.mpr ⟨e, memo₁, Subject.exprOf_eq_some_iff.mpr hcells, rfl⟩
  | @copy v d w offset memo memo₁ r hop _ ih =>
    obtain ⟨k, rfl⟩ : ∃ j, k = j + 1 := ⟨k - 1, by omega⟩
    have hw : w ∈ s.sources v := by rw [sources, hop]; exact List.mem_singleton_self w
    have := height_lt hground (mem_dests_of_definingOp? hop) hw
    simp only [followAddress, hop]
    exact ih (by omega) (grounded_iff.mp hground w hw)
  | array hop | root hop =>
    obtain ⟨k, rfl⟩ : ∃ j, k = j + 1 := ⟨k - 1, by omega⟩
    simp only [followAddress, hop]
    rfl
  | @hidden v op _ _ hop hhides =>
    obtain ⟨k, rfl⟩ : ∃ j, k = j + 1 := ⟨k - 1, by omega⟩
    cases op with
    | shift | alloc => cases hhides
    | assign d x =>
      cases x with
      | var w => cases hhides
      | lit x =>
        simp only [followAddress, hop]
        rfl
    | _ =>
      simp only [followAddress, hop]
      rfl

/-- **The bounded recursion finds a location just when the recursion without a bound does.** -/
theorem locationOf_eq_some_iff :
    s.locationOf (.var v) memo = some (r, memo') ↔ s.Follows v (.const 0) memo r memo' :=
  ⟨follows_of_followAddress, fun h => h.found height_lt_instrs⟩

/-- Where expressions are found and addresses do not lead round in a circle, every address leads somewhere. -/
theorem exists_follows (hask : ∀ o memo, ∃ e memo', s.Answers o memo e memo') (hground : Grounded s.sources v)
    (offset : SymExpr) (memo : Memo) : ∃ r memo', s.Follows v offset memo r memo' := by
  induction hground generalizing offset memo with
  | intro v _ ih =>
    cases hop : s.func.definingOp? v with
    | none => exact ⟨_, _, .root hop⟩
    | some op =>
      cases op with
      | shift d base cells =>
        obtain ⟨e, memo₁, hcells⟩ := hask cells memo
        cases base with
        | lit x => exact ⟨_, _, .shiftLit hop hcells⟩
        | var w =>
          obtain ⟨r, memo₂, hbase⟩ := ih w (by rw [sources, hop]; exact List.mem_singleton_self w) (offset.plus e) memo₁
          exact ⟨r, memo₂, .shift hop hcells hbase⟩
      | assign d x =>
        cases x with
        | lit x => exact ⟨_, _, .hidden hop rfl⟩
        | var w =>
          obtain ⟨r, memo₁, hsource⟩ := ih w (by rw [sources, hop]; exact List.mem_singleton_self w) offset memo
          exact ⟨r, memo₁, .copy hop hsource⟩
      | alloc d size => exact ⟨_, _, .array hop⟩
      | _ => exact ⟨_, _, .hidden hop rfl⟩

/-! ### Repeated values -/

theorem allDecided_eq_some_iff {test : ValueId → Option Bool} {vs : List ValueId} :
    allDecided test vs = some b ↔ ∃ holds : ValueId → Bool, (∀ v ∈ vs, test v = some (holds v)) ∧ vs.all holds = b := by
  constructor
  · intro h
    refine ⟨fun v => (test v).getD false, ?_⟩
    induction vs generalizing b with
    | nil => exact ⟨nofun, Option.some.inj h⟩
    | cons v rest ih =>
      simp only [allDecided, Option.bind_eq_bind, Option.bind_eq_some_iff] at h
      obtain ⟨here, hv, others, hrest, hb⟩ := h
      obtain ⟨hall, rfl⟩ := ih hrest
      refine ⟨fun w hw => ?_, ?_⟩
      · rcases List.mem_cons.mp hw with rfl | hw
        · simp only [hv, Option.getD_some]
        · exact hall w hw
      · rw [List.all_cons, hv, Option.getD_some]
        exact Option.some.inj hb
  · rintro ⟨holds, hall, rfl⟩
    induction vs with
    | nil => rfl
    | cons v rest ih =>
      rw [allDecided, hall v List.mem_cons_self, ih fun w hw => hall w (List.mem_cons_of_mem _ hw)]
      rfl

theorem decides_of_repeats? (h : s.repeats? l k v = some b) : s.Decides l v b := by
  induction k generalizing v b with
  | zero => cases h
  | succ k ih =>
    rw [repeats?] at h
    split at h
    · rename_i hin
      split at h
      · rename_i hdef
        cases h
        exact .undefined hin hdef
      · rename_i c n i hdef
        split at h
        · rename_i hpure
          obtain ⟨holds, huses, rfl⟩ := allDecided_eq_some_iff.mp h
          exact .pure hin hdef hpure fun x hx => ih (huses x hx)
        · rename_i hpure
          cases h
          exact .impure hin hdef (by simpa using hpure)
    · rename_i hout
      cases h
      exact .outside (by simpa using hout)

theorem Decides.grounded (h : s.Decides l v b) : Grounded (s.inputs l) v := by
  refine grounded_iff.mpr fun w hw => ?_
  induction h generalizing w with
  | outside hout => simp [inputs, hout] at hw
  | undefined hin hdef => simp [inputs, hin, hdef] at hw
  | impure hin hdef himpure => simp [inputs, hin, hdef, himpure] at hw
  | pure hin hdef hpure _ ih =>
    simp only [inputs, hin, hdef, hpure, if_true] at hw
    exact grounded_iff.mpr (ih w hw)

/-- **A recursion that is deep enough decides whether a loop repeats a value.** -/
theorem Decides.found (h : s.Decides l v b) (hk : height (s.inputs l) s.func.dests v < k) :
    s.repeats? l k v = some b := by
  have hground := h.grounded
  induction h generalizing k with
  | outside hout =>
    obtain ⟨k, rfl⟩ : ∃ j, k = j + 1 := ⟨k - 1, by omega⟩
    simp [repeats?, hout]
  | undefined hin hdef =>
    obtain ⟨k, rfl⟩ : ∃ j, k = j + 1 := ⟨k - 1, by omega⟩
    simp [repeats?, hin, hdef]
  | impure hin hdef himpure =>
    obtain ⟨k, rfl⟩ : ∃ j, k = j + 1 := ⟨k - 1, by omega⟩
    simp [repeats?, hin, hdef, himpure]
  | @pure v c n i holds hin hdef hpure _ ih =>
    obtain ⟨k, rfl⟩ : ∃ j, k = j + 1 := ⟨k - 1, by omega⟩
    simp only [repeats?, hin, hdef, hpure, if_true]
    refine allDecided_eq_some_iff.mpr ⟨holds, fun x hx => ?_, rfl⟩
    have hx' : x ∈ s.inputs l v := by simpa [inputs, hin, hdef, hpure] using hx
    obtain ⟨op, hop, -⟩ := operand_of_mem_inputs hx'
    have := height_lt hground (mem_dests_of_definingOp? hop) hx'
    exact ih x hx (by omega) (grounded_iff.mp hground x hx')

/-- **The bounded recursion decides just when the recursion without a bound does.** -/
theorem isRepeated?_eq_some_iff : s.isRepeated? l v = some b ↔ s.Decides l v b :=
  ⟨decides_of_repeats?, fun h => h.found height_lt_instrs⟩

/-- Where values are not computed from each other in a circle, it is decided whether a loop repeats one. -/
theorem exists_decides (hground : Grounded (s.inputs l) v) : ∃ b, s.Decides l v b := by
  induction hground with
  | intro v _ ih =>
    cases hin : s.definedIn l v with
    | false => exact ⟨true, .outside hin⟩
    | true =>
      cases hdef : s.func.definition? v with
      | none => exact ⟨false, .undefined hin hdef⟩
      | some site =>
        obtain ⟨c, n, i⟩ := site
        cases hpure : i.isPure with
        | false => exact ⟨false, .impure hin hdef hpure⟩
        | true =>
          have hdecided : ∀ x, ∃ b, x ∈ i.uses → s.Decides l x b := fun x => by
            by_cases hx : x ∈ i.uses
            · obtain ⟨b, hb⟩ := ih x (by simpa [inputs, hin, hdef, hpure] using hx)
              exact ⟨b, fun _ => hb⟩
            · exact ⟨false, fun h => absurd h hx⟩
          choose holds hholds using hdecided
          exact ⟨_, .pure hin hdef hpure hholds⟩

end Bounds

/-! ## They end -/

section Valid

variable {f : Func} (hf : f.Valid) (hall : ∀ b, b < f.blocks.length → f.Live b)

include hf hall

/-- Where all steps go from a value to what the operation that defines it reads, no path goes on for ever. -/
theorem grounded_of_operands {next : ValueId → List ValueId}
    (hnext : ∀ v, ∀ x ∈ next v, ∃ op, f.definingOp? v = some op ∧ op.isPhi = false ∧ .var x ∈ op.operands)
    (v : ValueId) : Grounded next v := by
  refine Subrelation.accessible (fun {x v} hx => ?_) ((measure f.rank).wf.apply v)
  obtain ⟨op, hop, hphi, hread⟩ := hnext v x hx
  obtain ⟨⟨b, n, i⟩, hdef, rfl⟩ := Option.map_eq_some_iff.mp hop
  obtain ⟨hi, hd⟩ := Func.instrAt?_of_definition? hdef
  exact Func.rank_of_read hf hall hi hd hphi (List.mem_filterMap.mpr ⟨_, hread, rfl⟩)

theorem locationOf_follows (v : ValueId) (memo : Memo) :
    ∃ r memo', (Snapshot.of f).locationOf (.var v) memo = some (r, memo') ∧
      (Snapshot.of f).Follows v (.const 0) memo r memo' := by
  have hask : ∀ o memo, ∃ e memo', (Snapshot.of f).Answers o memo e memo' := fun o memo => by
    obtain ⟨e, memo', -, h⟩ := Subject.exprOf_answers hf hall o memo
    exact ⟨e, memo', h⟩
  have hground := grounded_of_operands hf hall (fun _ _ hx => operand_of_mem_sources (s := Snapshot.of f) hx) v
  obtain ⟨r, memo', h⟩ := exists_follows hask hground (.const 0) memo
  exact ⟨r, memo', locationOf_eq_some_iff.mpr h, h⟩

theorem isRepeated?_decides (l : Loop) (v : ValueId) :
    ∃ b, (Snapshot.of f).isRepeated? l v = some b ∧ (Snapshot.of f).Decides l v b := by
  have hground := grounded_of_operands hf hall (fun _ _ hx => operand_of_mem_inputs (s := Snapshot.of f) (l := l) hx) v
  obtain ⟨b, h⟩ := exists_decides hground
  exact ⟨b, isRepeated?_eq_some_iff.mpr h, h⟩

end Valid

end Snapshot

/-- **The recursions on definitions end** in a valid function without unreachable blocks, whatever is in the memo table:
asking for the expression of an operand, following an address to its base, and deciding whether a loop repeats a value. -/
theorem Snapshot.recursions_end (f : Func) (hvalid : f.isValid = true) (hall : f.unreachableBlocks = []) (memo : Memo) :
    (∀ o, ∃ e memo', (Snapshot.of f).exprOf o memo = some (e, memo') ∧ (Snapshot.of f).Answers o memo e memo') ∧
    (∀ v, ∃ r memo', (Snapshot.of f).locationOf (.var v) memo = some (r, memo') ∧
      (Snapshot.of f).Follows v (.const 0) memo r memo') ∧
    ∀ l v, ∃ b, (Snapshot.of f).isRepeated? l v = some b ∧ (Snapshot.of f).Decides l v b := by
  have hf := Func.isValid_iff.mp hvalid
  have hlive : ∀ b, b < f.blocks.length → f.Live b := fun b => Func.live_of_all_reachable hall
  exact ⟨fun o => Subject.exprOf_answers hf hlive o memo, fun v => locationOf_follows hf hlive v memo,
    isRepeated?_decides hf hlive⟩

/-- Two loops, one in the other, whose phis go on from where the other one has got to. The inner loop writes to an array,
at an address that both phis and a copy lead to. -/
def relayFill : Func where
  name := "relayFill"
  params := [0]
  blocks := [
    { instrs := [{ op := .alloc 1 64 }], term := .jump 1 },
    { instrs := [{ op := .phi 2 [(0, .lit (.int 0)), (3, .var 9)] }], term := .jump 2 },
    { instrs := [
        { op := .phi 3 [(1, .var 2), (2, .var 4)] },
        { op := .binary .add 4 (.var 3) (.lit (.int 1)) },
        { op := .binary .mul 5 (.var 2) (.var 0) },
        { op := .shift 6 (.var 1) (.var 5) },
        { op := .assign 7 (.var 6) },
        { op := .shift 8 (.var 7) (.var 3) },
        { op := .store (.var 8) (.var 5) },
        { op := .binary .lt 10 (.var 4) (.var 0) }],
      term := .branch (.var 10) 2 3 },
    { instrs := [{ op := .binary .add 9 (.var 4) (.lit (.int 2)) }, { op := .binary .lt 11 (.var 9) (.var 0) }],
      term := .branch (.var 11) 1 4 },
    { term := .ret [.var 9] }]

def relayFillInner : Loop := relayFill.loops.getLastD default

/-- After a question that went through both phis: the inner one is a recurrence from the outer one, the address is found
in the array, and what is computed from the outer phi is the same in all rounds of the inner loop, but not the address. -/
theorem relayFill_recursions_end :
    relayFill.isValid = true ∧ relayFill.unreachableBlocks = [] ∧
      ∃ memo, (Snapshot.of relayFill).memoAfter? [.var 9] {} = some memo ∧
        (∃ memo', (Snapshot.of relayFill).Answers (.var 3) memo (.recur (.leaf 2) (.const 1) 2) memo') ∧
        (∃ memo', (Snapshot.of relayFill).Follows 8 (.const 0) memo
          (some ⟨1, true, .recur (.add [.leaf 2, .mul [.leaf 0, .leaf 2]]) (.const 1) 2⟩) memo') ∧
        (Snapshot.of relayFill).Decides relayFillInner 7 true ∧ (Snapshot.of relayFill).Decides relayFillInner 8 false := by
  have hvalid : relayFill.isValid = true := by decide +kernel
  have hall : relayFill.unreachableBlocks = [] := by decide +kernel
  have hasked : ((Snapshot.of relayFill).memoAfter? [.var 9] {}).isSome = true := by decide +kernel
  obtain ⟨memo, hmemo⟩ := Option.isSome_iff_exists.mp hasked
  obtain ⟨hanswers, hfollows, hdecides⟩ := Snapshot.recursions_end relayFill hvalid hall memo
  have hexpr : (((Snapshot.of relayFill).memoAfter? [.var 9] {}).bind fun memo =>
      ((Snapshot.of relayFill).exprOf (.var 3) memo).map Prod.fst) = some (.recur (.leaf 2) (.const 1) 2) := by
    decide +kernel
  have hlocation : (((Snapshot.of relayFill).memoAfter? [.var 9] {}).bind fun memo =>
      ((Snapshot.of relayFill).locationOf (.var 8) memo).map Prod.fst) =
        some (some ⟨1, true, .recur (.add [.leaf 2, .mul [.leaf 0, .leaf 2]]) (.const 1) 2⟩) := by decide +kernel
  obtain ⟨e, memo', he, hanswer⟩ := hanswers (.var 3)
  obtain ⟨r, memo'', hr, hfollow⟩ := hfollows 8
  obtain ⟨copy, hcopy, hdecide⟩ := hdecides relayFillInner 7
  obtain ⟨address, haddress, hdecide'⟩ := hdecides relayFillInner 8
  rw [hmemo, Option.bind_some, he, Option.map_some, Option.some.injEq] at hexpr
  rw [hmemo, Option.bind_some, hr, Option.map_some, Option.some.injEq] at hlocation
  obtain rfl : copy = true := Option.some.inj (hcopy.symm.trans (by decide +kernel))
  obtain rfl : address = false := Option.some.inj (haddress.symm.trans (by decide +kernel))
  obtain rfl : e = _ := hexpr
  obtain rfl : r = _ := hlocation
  exact ⟨hvalid, hall, memo, hmemo, ⟨_, hanswer⟩, ⟨_, hfollow⟩, hdecide, hdecide'⟩

end SsaFusion
