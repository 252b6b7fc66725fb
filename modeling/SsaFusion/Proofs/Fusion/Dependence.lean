import SsaFusion.Proofs.Flow.Loop
import SsaFusion.Proofs.Fusion.Growth
import SsaFusion.Proofs.Symbolic.Meaning

/-!
# Dependences through memory

Fusion lets round `j` of the second loop run before the rounds after `j` of the first. It reverses two accesses if the
first loop touches in round `k₁` what the second touches in a round `k₂ < k₁`. The main statement is that this cannot
happen to a load and a store, or to two stores, between which no dependence is reported.

Offsets are compared as integers, for any values of the leaves and of the other counters. If the second loop is `d` cells
ahead and the first moves by `s` cells a round, they meet after `r` rounds only if `r * s = d`, and for a positive `r` the
signs of `s` and `d` then agree (`isHazard_of_meets`). An offset moves by its stride only if it counts the rounds of the
loop nowhere but outermost: a recurrence over a header outside is taken for steady whatever it starts from.
-/

namespace SsaFusion

/-- The rounds of a loop are counted by the outermost node of an expression at most. -/
def SymExpr.CountsOutermost (h : BlockId) : SymExpr → Prop
  | recur a s _ => .round h ∉ a.atoms ∧ .round h ∉ s.atoms
  | e => .round h ∉ e.atoms

/-- A value that is an array allocated by the function. -/
def Func.IsArray (f : Func) (v : ValueId) : Prop := ∃ d n, f.definingOp? v = some (.alloc d n)

/-- A load or a store at a position, with its address. -/
inductive Func.Touches (f : Func) (p : Position) : (address : Operand) → (isWrite : Bool) → Prop
  | load {i : Instr} {d : ValueId} {a : Operand} :
    f.instrAt? p.block p.index = some i → i.op = .load d a → Touches f p a false
  | store {i : Instr} {a x : Operand} :
    f.instrAt? p.block p.index = some i → i.op = .store a x → Touches f p a true

namespace Snapshot

variable {s : Snapshot} {l l₁ l₂ : Loop}

/-! ## Addresses -/

/-- Copies and shifts lead from an address to a base; the shifts are by the listed numbers of cells. -/
inductive LeadsTo (s : Snapshot) (base : ValueId) : Operand → List SymExpr → Prop
  | here : LeadsTo s base (.var base) []
  | copy {v d : ValueId} {a : Operand} {es : List SymExpr} :
    s.func.definingOp? v = some (.assign d a) → LeadsTo s base a es → LeadsTo s base (.var v) es
  | shift {v d : ValueId} {a cells : Operand} {e : SymExpr} {es : List SymExpr} {memo memo' : Memo} :
    s.func.definingOp? v = some (.shift d a cells) → s.exprOf cells memo = some (e, memo') → LeadsTo s base a es →
      LeadsTo s base (.var v) (e :: es)

/-- An address is at a location, counted from a number of cells: the base is an array or a parameter, and the offset is
that number and what the shifts on the way to the base add up to. -/
structure IsAt (s : Snapshot) (start : SymExpr) (address : Operand) (p : Location) : Prop where
  root : (p.fresh = true ∧ s.func.IsArray p.base) ∨ (p.fresh = false ∧ p.base ∈ s.func.params)
  known : start.isKnown = true ∧ p.offset.isKnown = true
  shifts : ∃ es, LeadsTo s p.base address es ∧ ∀ v, p.offset.evalIn v = start.evalIn v + (es.map (SymExpr.evalIn v)).sum

namespace IsAt

variable {start : SymExpr} {v d : ValueId} {a cells : Operand} {p : Location}

theorem array {n : Nat} (hd : s.func.definingOp? v = some (.alloc d n)) (hk : start.isKnown = true) :
    IsAt s start (.var v) ⟨v, true, start⟩ :=
  ⟨.inl ⟨rfl, d, n, hd⟩, ⟨hk, hk⟩, [], .here, fun x => by simp⟩

theorem param (hv : v ∈ s.func.params) (hk : start.isKnown = true) : IsAt s start (.var v) ⟨v, false, start⟩ :=
  ⟨.inr ⟨rfl, hv⟩, ⟨hk, hk⟩, [], .here, fun x => by simp⟩

theorem copy (hd : s.func.definingOp? v = some (.assign d a)) (h : IsAt s start a p) : IsAt s start (.var v) p := by
  obtain ⟨es, hlead, hval⟩ := h.shifts
  exact ⟨h.root, h.known, es, .copy hd hlead, hval⟩

/-- The cells of a shift are counted in before its base is followed. -/
theorem shift {e : SymExpr} {memo memo' : Memo} (hd : s.func.definingOp? v = some (.shift d a cells))
    (hcells : s.exprOf cells memo = some (e, memo')) (h : IsAt s (start.plus e) a p) : IsAt s start (.var v) p := by
  obtain ⟨es, hlead, hval⟩ := h.shifts
  obtain ⟨hstart, -, hplus, -⟩ := SymExpr.plus_exactIn h.known.1
  refine ⟨h.root, ⟨hstart, h.known.2⟩, _, .shift hd hcells hlead, fun x => ?_⟩
  rw [hval, hplus, List.map_cons, List.sum_cons, add_assoc]

theorem isArray (h : IsAt s start a p) (hfresh : p.fresh = true) : s.func.IsArray p.base := by
  rcases h.root with ⟨-, harray⟩ | ⟨hparam, -⟩
  · exact harray
  · rw [hfresh] at hparam
    cases hparam

end IsAt

theorem isAt_of_followAddress {depth : Nat} {v : ValueId} {start : SymExpr} {memo memo' : Memo} {p : Location}
    (h : s.followAddress depth v start memo = some (some p, memo')) : IsAt s start (.var v) p := by
  induction depth generalizing v start memo with
  | zero => cases h
  | succ k ih =>
    cases hd : s.func.definingOp? v with
    | none =>
      simp only [followAddress, hd] at h
      obtain ⟨hroot, ⟨⟩⟩ := Option.ite_none_right_eq_some.mp (Query.pure_eq_some_iff.mp h).1
      simp only [Bool.and_eq_true, List.contains_iff_mem] at hroot
      exact .param hroot.1 hroot.2
    | some op =>
      cases op with
      | shift d base cells =>
        simp only [followAddress, hd] at h
        obtain ⟨e, memo₁, hcells, h⟩ := Query.bind_eq_some_iff.mp h
        cases base with
        | lit _ => cases h
        | var w => exact .shift hd hcells (ih h)
      | assign d a =>
        simp only [followAddress, hd] at h
        cases a with
        | lit _ => cases h
        | var w => exact .copy hd (ih h)
      | alloc d n =>
        simp only [followAddress, hd] at h
        obtain ⟨hknown, ⟨⟩⟩ := Option.ite_none_right_eq_some.mp (Query.pure_eq_some_iff.mp h).1
        exact .array hd hknown
      | _ =>
        simp only [followAddress, hd] at h
        cases h

theorem isAt_of_locationOf {address : Operand} {memo memo' : Memo} {p : Location}
    (h : s.locationOf address memo = some (some p, memo')) : IsAt s (.const 0) address p := by
  cases address with
  | lit _ => cases h
  | var v => exact isAt_of_followAddress h

/-! ## Accesses

The locations of a list of accesses are looked up one after another, each with what is remembered from those before. -/

/-- An access to an address is listed with the location that was found for the address, and what was known then is known. -/
def Lists (s : Snapshot) (accesses : List Access) (known : Memo) (p : Position) (address : Operand) (w : Bool) : Prop :=
  ∃ memo location memo', s.locationOf address memo = some (location, memo') ∧ memo'.Extends known ∧
    ⟨p, w, location⟩ ∈ accesses

theorem lists_accessesAt {b : BlockId} {is : List (Instr × Nat)} {i : Instr} {n : Nat} {address : Operand} {w : Bool}
    (hi : (i, n) ∈ is) (ha : accessOf i.op = some (address, w)) {memo memo' : Memo} {found : List Access}
    (h : s.accessesAt b is memo = some (found, memo')) : s.Lists found memo' ⟨b, n⟩ address w := by
  induction is generalizing memo found with
  | nil => cases hi
  | cons x rest ih =>
    obtain ⟨j, m⟩ := x
    cases hj : accessOf j.op with
    | none =>
      simp only [accessesAt, hj] at h
      refine ih ((List.mem_cons.mp hi).resolve_left fun e => ?_) h
      cases e
      rw [ha] at hj
      cases hj
    | some y =>
      simp only [accessesAt, hj] at h
      obtain ⟨location, memo₁, hlocation, h⟩ := Query.bind_eq_some_iff.mp h
      obtain ⟨others, memo₂, hothers, h⟩ := Query.bind_eq_some_iff.mp h
      obtain ⟨rfl, rfl⟩ := Query.pure_eq_some_iff.mp h
      rcases List.mem_cons.mp hi with hhere | hrest
      · cases hhere
        rw [ha] at hj
        cases hj
        exact ⟨memo, location, memo₁, hlocation, s.accessesAt_grows b rest memo₁ others memo₂ hothers, List.mem_cons_self⟩
      · obtain ⟨memo', location', memo'', hat, hext, hmem⟩ := ih hrest hothers
        exact ⟨memo', location', memo'', hat, hext, List.mem_cons_of_mem _ hmem⟩

theorem lists_accessesOf {blocks : List BlockId} {b : BlockId} {i : Instr} {n : Nat} {address : Operand} {w : Bool}
    (hb : b ∈ blocks) (hi : s.func.instrAt? b n = some i) (ha : accessOf i.op = some (address, w)) {memo memo' : Memo}
    {found : List Access} (h : s.accessesOf blocks memo = some (found, memo')) : s.Lists found memo' ⟨b, n⟩ address w := by
  induction blocks generalizing memo found with
  | nil => cases hb
  | cons c rest ih =>
    obtain ⟨here, memo₁, hhere, h⟩ := Query.bind_eq_some_iff.mp h
    obtain ⟨others, memo₂, hothers, h⟩ := Query.bind_eq_some_iff.mp h
    obtain ⟨rfl, rfl⟩ := Query.pure_eq_some_iff.mp h
    rcases List.mem_cons.mp hb with rfl | hrest
    · obtain ⟨memo', location, memo'', hat, hext, hmem⟩ :=
        lists_accessesAt (List.mk_mem_zipIdx_iff_getElem?.mpr hi) ha hhere
      refine ⟨memo', location, memo'', hat, hext.trans ?_, List.mem_append_left _ hmem⟩
      exact s.accessesOf_grows rest memo₁ others memo₂ hothers
    · obtain ⟨memo', location, memo'', hat, hext, hmem⟩ := ih hrest hothers
      exact ⟨memo', location, memo'', hat, hext, List.mem_append_right _ hmem⟩

/-- Every load and every store of the blocks is listed. -/
theorem lists_of_touches {blocks : List BlockId} {p : Position} {address : Operand} {w : Bool}
    (hp : s.func.Touches p address w) (hb : p.block ∈ blocks) {memo memo' : Memo} {found : List Access}
    (h : s.accessesOf blocks memo = some (found, memo')) : s.Lists found memo' p address w := by
  cases hp with
  | load hi hop => exact lists_accessesOf hb hi (by rw [hop]; rfl) h
  | store hi hop => exact lists_accessesOf hb hi (by rw [hop]; rfl) h

/-! ## Hazards -/

/-- The accesses of two loops, those of the first looked up first. -/
def Accesses (s : Snapshot) (l₁ l₂ : Loop) (memo : Memo) (first second : List Access) (memo' : Memo) : Prop :=
  ∃ memo₁, s.accessesOf l₁.blocks memo = some (first, memo₁) ∧ s.accessesOf l₂.blocks memo₁ = some (second, memo')

theorem accesses_of_memoryDependences {memo memo' : Memo} {found : List Dependence}
    (h : s.memoryDependences l₁ l₂ memo = some (found, memo')) :
    ∃ first second, s.Accesses l₁ l₂ memo first second memo' ∧ found = s.memoryHazards l₁ l₂ first second := by
  obtain ⟨first, memo₁, hfirst, h⟩ := Query.bind_eq_some_iff.mp h
  obtain ⟨second, memo₂, hsecond, h⟩ := Query.bind_eq_some_iff.mp h
  obtain ⟨rfl, rfl⟩ := Query.pure_eq_some_iff.mp h
  exact ⟨first, second, ⟨memo₁, hfirst, hsecond⟩, rfl⟩

theorem hazard?_eq_none {first second : List Access} {a b : Access} (ha : a ∈ first) (hb : b ∈ second)
    (hw : a.isWrite = true ∨ b.isWrite = true)
    (hnone : ∀ d ∈ s.memoryHazards l₁ l₂ first second, ¬(d.source = a.position ∧ d.sink = b.position)) :
    s.hazard? l₁ l₂ a b = none := by
  rw [Option.eq_none_iff_forall_ne_some]
  intro distance h
  refine hnone ⟨a.position, b.position, kindOf a b, distance⟩ ?_ ⟨rfl, rfl⟩
  refine List.mem_flatMap.mpr ⟨a, ha, List.mem_filterMap.mpr ⟨b, hb, ?_⟩⟩
  rw [if_pos (by simpa using hw), h, Option.map_some]

theorem locations_of_hazard?_eq_none {a b : Access} (h : s.hazard? l₁ l₂ a b = none) :
    ∃ p q, a.location = some p ∧ b.location = some q ∧
      (p.base ≠ q.base ∧ (p.fresh = true ∨ q.fresh = true) ∨
        p.base = q.base ∧ s.offsetHazard? l₁ l₂ p.offset q.offset = none) := by
  unfold hazard? at h
  split at h
  · rename_i p q hp hq
    refine ⟨p, q, hp, hq, ?_⟩
    split at h
    · rename_i hne
      refine .inl ⟨hne, ?_⟩
      split at h
      · cases h
      · rename_i hfresh
        cases hpf : p.fresh
        · exact .inr (by simpa [hpf] using hfresh)
        · exact .inl rfl
    · rename_i heq
      exact .inr ⟨not_not.mp heq, h⟩
  · cases h

/-! ## Offsets -/

/-- What does not change in a loop, and counts its rounds outermost if at all, does not count them. -/
theorem round_notMem_of_isSteady {e : SymExpr} (hh : l.header ∈ l.blocks) (hsteady : s.isSteady l e = true)
    (hout : e.CountsOutermost l.header) : .round l.header ∉ e.atoms := by
  cases e with
  | recur a step h =>
    have hne : l.header ≠ h := by
      rintro rfl
      simp [Subject.isSteady, Loop.contains, hh] at hsteady
    simpa [hne, SymExpr.CountsOutermost] using hout
  | _ => exact hout

/-- The stride is what an offset moves by from round to round. -/
theorem evalIn_stride {e : SymExpr} {stride : Word} (hh : l.header ∈ l.blocks) (hstride : s.stride? l e = some stride)
    (hout : e.CountsOutermost l.header) (v : Valuation) (j k : Int) :
    e.evalIn (v.inRound l.header k) = e.evalIn (v.inRound l.header j) + (k - j) * stride.toInt := by
  unfold stride? at hstride
  split at hstride
  · rename_i hsteady
    cases hstride
    have hfree := round_notMem_of_isSteady hh hsteady hout
    rw [SymExpr.evalIn_inRound hfree, SymExpr.evalIn_inRound hfree]
    simp
  · split at hstride
    · rename_i a step h _
      obtain ⟨rfl, hstep⟩ := Option.ite_none_right_eq_some.mp hstride
      obtain rfl := SymExpr.eq_const_of_const? hstep
      rw [SymExpr.evalIn_recur_inRound hout.1 hout.2, SymExpr.evalIn_recur_inRound hout.1 hout.2, SymExpr.evalIn_const]
      ring
    · cases hstride

/-- The first loop gets to a cell after the second only if it moves to where the second is ahead. -/
theorem isHazard_of_meets {ahead stride : Word} {rounds : Int} (hpos : 0 < rounds)
    (hmeet : rounds * stride.toInt = ahead.toInt) :
    ((0 < ahead && 0 < stride) || (ahead < 0 && stride < 0) || (stride == 0 && ahead == 0)) = true := by
  simp only [Bool.or_eq_true, Bool.and_eq_true, decide_eq_true_eq, beq_iff_eq, Int64.lt_iff_toInt_lt, ← Int64.toInt_inj,
    Int64.toInt_zero]
  rcases lt_trichotomy stride.toInt 0 with hdown | hstill | hup
  · exact .inl (.inr ⟨hmeet ▸ Int.mul_neg_of_pos_of_neg hpos hdown, hdown⟩)
  · exact .inr ⟨hstill, by rw [← hmeet, hstill, mul_zero]⟩
  · exact .inl (.inl ⟨hmeet ▸ Int.mul_pos hpos hup, hup⟩)

/-- Without a hazard the first loop never gets to a cell after the second. -/
theorem evalIn_ne_of_offsetHazard?_eq_none {e₁ e₂ : SymExpr} (hh : l₁.header ∈ l₁.blocks)
    (hnone : s.offsetHazard? l₁ l₂ e₁ e₂ = none) (hout : e₁.CountsOutermost l₁.header) (v : Valuation) {k₁ k₂ : Int}
    (hk : k₂ < k₁) :
    e₁.evalIn (v.inRound l₁.header k₁) ≠ (e₂.rebase l₂.header l₁.header).evalIn (v.inRound l₁.header k₂) := by
  unfold offsetHazard? at hnone
  split at hnone
  · rename_i ahead stride hahead hstride
    intro hmeet
    -- both sides in round `k₂`: the first is `(k₁ - k₂) * stride` behind, the second `ahead`
    rw [evalIn_stride hh hstride hout v k₂, SymExpr.evalIn_eq_add_of_minus hahead] at hmeet
    have hhazard := isHazard_of_meets (sub_pos.mpr hk) (add_left_cancel hmeet)
    rw [if_pos hhazard] at hnone
    cases hnone
  · cases hnone

end Snapshot

/-! ## Unreported accesses -/

/-- **Unreported accesses are not reversed**: a load or store `p` of the first loop and one `q` of the second, one of
them a store and no dependence between them reported, are at known locations. Either the bases differ and one of them is
an array, or they are the same and `p` never touches in a later round what `q` touches in an earlier one, whatever the
leaves and the other counters are. -/
theorem unreported_not_reversed (f : Func) {l₁ : Loop} (hl₁ : l₁ ∈ f.loops) (l₂ : Loop) {memo memo' : Memo}
    {found : List Dependence} (hfound : (Snapshot.of f).memoryDependences l₁ l₂ memo = some (found, memo'))
    {p q : Position} {a b : Operand} {w₁ w₂ : Bool} (hp : f.Touches p a w₁) (hpl : p.block ∈ l₁.blocks)
    (hq : f.Touches q b w₂) (hql : q.block ∈ l₂.blocks) (hw : w₁ = true ∨ w₂ = true)
    (hnone : ∀ d ∈ found, ¬(d.source = p ∧ d.sink = q)) :
    ∃ first second, (Snapshot.of f).Accesses l₁ l₂ memo first second memo' ∧
    ∃ P Q : Location, ⟨p, w₁, some P⟩ ∈ first ∧ ⟨q, w₂, some Q⟩ ∈ second ∧
      (Snapshot.of f).IsAt (.const 0) a P ∧ (Snapshot.of f).IsAt (.const 0) b Q ∧
      (P.base ≠ Q.base ∧ (f.IsArray P.base ∨ f.IsArray Q.base) ∨
        P.base = Q.base ∧ (P.offset.CountsOutermost l₁.header → ∀ (v : Valuation) (k₁ k₂ : Nat), k₂ < k₁ →
          P.offset.evalIn (v.inRound l₁.header k₁) ≠
            (Q.offset.rebase l₂.header l₁.header).evalIn (v.inRound l₁.header k₂) ∧
          (Q.offset.rebase l₂.header l₁.header).evalIn (v.inRound l₁.header k₂) =
            Q.offset.evalIn ((v.inRound l₁.header k₂).inRound l₂.header k₂))) := by
  have hp' : (Snapshot.of f).func.Touches p a w₁ := hp
  have hq' : (Snapshot.of f).func.Touches q b w₂ := hq
  have hh := (isLoop_of_mem hl₁).header_mem
  obtain ⟨first, second, haccesses, rfl⟩ := Snapshot.accesses_of_memoryDependences hfound
  obtain ⟨memo₁, hfirst, hsecond⟩ := haccesses
  obtain ⟨_, _, _, hatP, -, hmemP⟩ := Snapshot.lists_of_touches hp' hpl hfirst
  obtain ⟨_, _, _, hatQ, -, hmemQ⟩ := Snapshot.lists_of_touches hq' hql hsecond
  have hsafe := Snapshot.hazard?_eq_none hmemP hmemQ hw hnone
  obtain ⟨P, Q, rfl, rfl, hapart⟩ := Snapshot.locations_of_hazard?_eq_none hsafe
  have hatP := Snapshot.isAt_of_locationOf hatP
  have hatQ := Snapshot.isAt_of_locationOf hatQ
  refine ⟨first, second, ⟨memo₁, hfirst, hsecond⟩, P, Q, hmemP, hmemQ, hatP, hatQ, ?_⟩
  rcases hapart with ⟨hne, hfresh⟩ | ⟨heq, hoffset⟩
  · exact .inl ⟨hne, hfresh.imp hatP.isArray hatQ.isArray⟩
  · refine .inr ⟨heq, fun hout v k₁ k₂ hk => ⟨?_, ?_⟩⟩
    · exact Snapshot.evalIn_ne_of_offsetHazard?_eq_none hh hoffset hout v (Int.ofNat_lt.mpr hk)
    · rw [SymExpr.evalIn_rebase, Valuation.rounds_inRound]

/-- Writes every second cell of an array from a parameter on, then reads the cell before each of them. -/
def readBehind : Func where
  name := "readBehind"
  params := [0]
  blocks := [
    { instrs := [{ op := .alloc 1 64 }], term := .jump 1 },
    { instrs := [
        { op := .phi 2 [(0, .lit (.int 0)), (1, .var 5)] },
        { op := .shift 3 (.var 1) (.var 0) },
        { op := .shift 4 (.var 3) (.var 2) },
        { op := .store (.var 4) (.var 2) },
        { op := .binary .add 5 (.var 2) (.lit (.int 2)) },
        { op := .binary .lt 6 (.var 5) (.lit (.int 16)) }],
      term := .branch (.var 6) 1 2 },
    { term := .jump 3 },
    { instrs := [
        { op := .phi 7 [(2, .lit (.int (-1))), (3, .var 11)] },
        { op := .shift 8 (.var 1) (.var 7) },
        { op := .shift 9 (.var 8) (.var 0) },
        { op := .load 10 (.var 9) },
        { op := .binary .add 11 (.var 7) (.lit (.int 2)) },
        { op := .binary .lt 12 (.var 11) (.lit (.int 15)) }],
      term := .branch (.var 12) 3 4 },
    { term := .ret [] }]

def readBehindLoops : Loop × Loop := (readBehind.loops.headD default, readBehind.loops.getLastD default)

/-- The store and the load are in one array, and the load stays a cell behind the stores of its round and all later ones. -/
theorem readBehind_not_reversed :
    ∃ memo', (Snapshot.of readBehind).memoryDependences readBehindLoops.1 readBehindLoops.2 {} = some ([], memo') ∧
    ∃ P Q : Location, P.base = Q.base ∧
      (Snapshot.of readBehind).IsAt (.const 0) (.var 4) P ∧ (Snapshot.of readBehind).IsAt (.const 0) (.var 9) Q ∧
      P.offset = .recur (.leaf 0) (.const 2) 1 ∧ P.offset.CountsOutermost 1 ∧
      ∀ (v : Valuation) (k₁ k₂ : Nat), k₂ < k₁ →
        P.offset.evalIn (v.inRound 1 k₁) ≠ (Q.offset.rebase 3 1).evalIn (v.inRound 1 k₂) := by
  have hl : readBehindLoops.1 ∈ readBehind.loops := by decide +kernel
  have hheaders : readBehindLoops.1.header = 1 ∧ readBehindLoops.2.header = 3 := by decide +kernel
  have hdeps : ((Snapshot.of readBehind).memoryDependences readBehindLoops.1 readBehindLoops.2 {}).map Prod.fst =
      some [] := by decide +kernel
  obtain ⟨⟨found, memo'⟩, hfound, hnone⟩ := Option.map_eq_some_iff.mp hdeps
  obtain rfl : found = [] := hnone
  have hfirst : ((Snapshot.of readBehind).accessesOf readBehindLoops.1.blocks {}).map Prod.fst =
      some [⟨⟨1, 3⟩, true, some ⟨1, true, .recur (.leaf 0) (.const 2) 1⟩⟩] := by decide +kernel
  have hsecond : (((Snapshot.of readBehind).accessesOf readBehindLoops.1.blocks {}).bind fun p =>
      (Snapshot.of readBehind).accessesOf readBehindLoops.2.blocks p.2).all
        (fun p => p.1.all fun x => x.location.map Location.base == some 1) = true := by decide +kernel
  obtain ⟨first, second, ⟨memo₁, hfirst', hsecond'⟩, P, Q, hP, hQ, hatP, hatQ, hapart⟩ :=
    unreported_not_reversed readBehind hl readBehindLoops.2 hfound (p := ⟨1, 3⟩) (q := ⟨3, 3⟩) (.store rfl rfl)
      (by decide +kernel) (.load rfl rfl) (by decide +kernel) (.inl rfl) (by simp)
  rw [hfirst', Option.map_some, Option.some.injEq] at hfirst
  rw [hfirst', Option.bind_some, hsecond', Option.all_some, List.all_eq_true] at hsecond
  obtain rfl : first = _ := hfirst
  cases List.mem_singleton.mp hP
  have hbase : 1 = Q.base := (show Q.base = 1 by simpa using hsecond _ hQ).symm
  have hout : SymExpr.CountsOutermost 1 (.recur (.leaf 0) (.const 2) 1) := by
    simp [SymExpr.CountsOutermost, SymExpr.atoms]
  rw [hheaders.1, hheaders.2] at hapart
  obtain ⟨-, hoffsets⟩ := hapart.resolve_left fun h => h.1 hbase
  exact ⟨memo', hfound, _, Q, hbase, hatP, hatQ, rfl, hout, fun v k₁ k₂ hk => (hoffsets hout v k₁ k₂ hk).1⟩

end SsaFusion
