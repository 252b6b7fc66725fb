import SsaFusion.Machine.Run
import SsaFusion.Proofs.Data.Table
import SsaFusion.Proofs.Validity

/-!
# Runs of valid functions

A valid function cannot go structurally wrong. Along a run the values available at the current point are bound and every
pointer, in a value or in a cell, names an allocation that was made (`Machine.Sound`). One instruction preserves this
(`execute_safe`), so does entering a block (`enter_safe`), and a run consists of these (`runBlocks_safe`). What is left
are the faults of `Fault.Ordinary`.
-/

namespace SsaFusion

/-- The faults that a run of a valid function may end in: those of the data, of a terminator marked unreachable, of the
budget, and of an array that cannot be made. -/
inductive Fault.Ordinary (f : Func) (limit : Nat) : Fault → Prop
  | typeMismatch (k : DatumKind) (d : Datum) : Ordinary f limit (.typeMismatch k d)
  | divisionByZero : Ordinary f limit .divisionByZero
  | outOfBounds (offset : Word) (size : Nat) : Ordinary f limit (.outOfBounds offset size)
  | budgetExhausted : Ordinary f limit (.budgetExhausted limit)
  | unreachable {b : BlockId} (hb : f.Live b) (ht : f.term? b = some .unreachable) : Ordinary f limit (.unreachable b)
  | arrayTooLarge {b : BlockId} {i : Instr} {d : ValueId} {n : Nat} (hb : f.Live b) (hi : i ∈ f.instrsOf b)
      (ho : i.op = .alloc d n) (hn : Machine.maxCells < n) : Ordinary f limit (.arrayTooLarge n)

/-- A computation gives a result with a property or an ordinary fault. -/
def Safe {α : Type} (f : Func) (limit : Nat) (good : α → Prop) : Except Fault α → Prop
  | .ok a => good a
  | .error e => e.Ordinary f limit

namespace Safe

variable {α β : Type} {f : Func} {limit : Nat} {good good' : α → Prop} {better : β → Prop}

theorem mono {x : Except Fault α} (h : Safe f limit good x) (hle : ∀ a, good a → good' a) :
    Safe f limit good' x := by
  cases x with
  | ok a => exact hle a h
  | error e => exact h

theorem bind {x : Except Fault α} {k : α → Except Fault β} (hx : Safe f limit good x)
    (hk : ∀ a, good a → Safe f limit better (k a)) : Safe f limit better (x >>= k) := by
  cases x with
  | ok a => exact hk a hx
  | error e => exact hx

end Safe

/-- A pointer names one of the first allocations; other data names none. -/
def Datum.Known (count : Nat) : Datum → Prop
  | .ptr a _ => a < count
  | _ => True

theorem Datum.Known.mono {d : Datum} {n m : Nat} (h : d.Known n) (hle : n ≤ m) : d.Known m := by
  cases d with
  | ptr a o => exact Nat.lt_of_lt_of_le h hle
  | _ => trivial

theorem Datum.known_ofLiteral (l : Literal) (n : Nat) : (Datum.ofLiteral l).Known n := by
  cases l <;> trivial

namespace Machine

/-- The values that should be bound are bound, and all pointers are to allocations that exist. -/
structure Sound (m : Machine) (avail : ValueId → Prop) : Prop where
  bound : ∀ v, avail v → ∃ d, m.env.get? v = some d
  env : ∀ v d, m.env.get? v = some d → d.Known m.memory.size
  cells : ∀ (a : Nat) (cells : Array Datum), m.memory[a]? = some cells →
    ∀ (k : Nat) (d : Datum), cells[k]? = some d → d.Known m.memory.size

variable {f : Func} {limit : Nat} {m : Machine} {avail avail' : ValueId → Prop}

theorem Sound.mono (h : m.Sound avail) (hle : ∀ v, avail' v → avail v) : m.Sound avail' :=
  { h with bound := fun v hv => h.bound v (hle v hv) }

/-- The number of steps does not matter. -/
theorem Sound.of_eq {m' : Machine} (h : m.Sound avail) (he : m'.env = m.env) (hm : m'.memory = m.memory) :
    m'.Sound avail := by
  obtain ⟨h₁, h₂, h₃⟩ := h
  exact ⟨he ▸ h₁, by rw [he, hm]; exact h₂, by rw [hm]; exact h₃⟩

theorem Sound.bind (h : m.Sound avail) {v : ValueId} {d : Datum} (hd : d.Known m.memory.size) :
    (m.bind v d).Sound fun w => avail w ∨ some v = some w := by
  refine ⟨fun w hw => ?_, fun w d' hw => ?_, h.cells⟩
  · simp only [Machine.bind, Table.get?_insert]
    split
    · exact ⟨d, rfl⟩
    · exact h.bound w (hw.resolve_right fun e => absurd (Option.some.inj e) ‹_›)
  · simp only [Machine.bind, Table.get?_insert] at hw
    split at hw
    · cases hw
      exact hd
    · exact h.env w d' hw

/-! ## Operands -/

/-- What an operand reads is available. -/
def Readable (avail : ValueId → Prop) (o : Operand) : Prop := ∀ v, o.var? = some v → avail v

section Operands

variable (h : m.Sound avail) {o x y : Operand}

include h

theorem read_ok (ho : Readable avail o) : ∃ d, m.read o = .ok d ∧ d.Known m.memory.size := by
  cases o with
  | lit l => exact ⟨_, rfl, Datum.known_ofLiteral l _⟩
  | var v =>
    obtain ⟨d, hd⟩ := h.bound v (ho v rfl)
    exact ⟨d, by simp [read, hd], h.env v d hd⟩

theorem read_safe (ho : Readable avail o) : Safe f limit (Datum.Known m.memory.size) (m.read o) := by
  obtain ⟨d, hd, hk⟩ := read_ok h ho
  rw [hd]
  exact hk

theorem readInt_safe (ho : Readable avail o) : Safe f limit (fun _ => True) (m.readInt o) := by
  refine (read_safe h ho).bind fun d _ => ?_
  split
  · trivial
  · exact .typeMismatch _ _

theorem readBool_safe (ho : Readable avail o) : Safe f limit (fun _ => True) (m.readBool o) := by
  refine (read_safe h ho).bind fun d _ => ?_
  split
  · trivial
  · exact .typeMismatch _ _

theorem readPtr_safe (ho : Readable avail o) : Safe f limit (fun p => p.1 < m.memory.size) (m.readPtr o) := by
  refine (read_safe h ho).bind fun d hd => ?_
  split
  · exact hd
  · exact .typeMismatch _ _

/-- An address that a sound machine reads is of an array that exists. -/
theorem locate_safe (ho : Readable avail o) :
    Safe f limit (fun c => c.1 < m.memory.size ∧ c.2.2.Known m.memory.size) (m.locate o) := by
  refine (readPtr_safe h ho).bind fun p hp => ?_
  obtain ⟨a, offset⟩ := p
  have ha : m.memory[a]? = some m.memory[a] := Array.getElem?_eq_getElem hp
  simp only [ha]
  split
  · exact .outOfBounds _ _
  · split
    · rename_i d hd
      exact ⟨hp, h.cells a _ ha _ d hd⟩
    · exact .outOfBounds _ _

theorem onInts_safe {k : Word → Word → Except Fault Datum} (hx : Readable avail x) (hy : Readable avail y)
    (hk : ∀ a b, Safe f limit (Datum.Known m.memory.size) (k a b)) :
    Safe f limit (Datum.Known m.memory.size) (m.onInts x y k) :=
  (readInt_safe h hx).bind fun a _ => (readInt_safe h hy).bind fun b _ => hk a b

theorem onBools_safe {k : Bool → Bool → Bool} (hx : Readable avail x) (hy : Readable avail y) :
    Safe f limit (Datum.Known m.memory.size) (m.onBools x y k) :=
  (readBool_safe h hx).bind fun _ _ => (readBool_safe h hy).bind fun _ _ => trivial

theorem equal_safe (hx : Readable avail x) (hy : Readable avail y) :
    Safe f limit (fun _ => True) (m.equal x y) := by
  refine (read_safe h hx).bind fun a _ => (read_safe h hy).bind fun b _ => ?_
  split
  · trivial
  · trivial
  · exact .typeMismatch _ _

theorem unary_safe (op : UnOp) (hx : Readable avail x) :
    Safe f limit (Datum.Known m.memory.size) (m.unary op x) := by
  cases op with
  | neg => exact (readInt_safe h hx).bind fun _ _ => trivial
  | not => exact (readBool_safe h hx).bind fun _ _ => trivial

theorem binary_safe (op : BinOp) (hx : Readable avail x) (hy : Readable avail y) :
    Safe f limit (Datum.Known m.memory.size) (m.binary op x y) := by
  have divides : ∀ {k : Word → Word → Word}, Safe f limit (Datum.Known m.memory.size)
      (m.onInts x y fun a b => if b = 0 then .error .divisionByZero else .ok (.int (k a b))) := by
    intro k
    refine onInts_safe h hx hy fun a b => ?_
    split
    · exact .divisionByZero
    · trivial
  cases op with
  | div | rem => exact divides
  | and | or => exact onBools_safe h hx hy
  | eq | ne => exact (equal_safe h hx hy).bind fun _ _ => trivial
  | _ => exact onInts_safe h hx hy fun _ _ => trivial

end Operands

/-! ## Instructions -/

theorem readable_of_mem {i : Instr} {o : Operand} (hr : ∀ v ∈ i.reads, avail v) (ho : o ∈ i.operands) :
    Readable avail o :=
  fun v hv => hr v (List.mem_filterMap.mpr ⟨o, ho, hv⟩)

theorem Sound.allocate (h : m.Sound avail) (size : Nat) :
    ({ m with memory := m.memory.push (Array.replicate size (.int 0)) } : Machine).Sound avail := by
  refine ⟨h.bound, fun v d hd => ?_, fun a cells ha k d hd => ?_⟩
  · exact (h.env v d hd).mono (by simp)
  · simp only [Array.getElem?_push] at ha
    split at ha
    · cases ha
      simp only [Array.getElem?_replicate] at hd
      split at hd
      · cases hd
        trivial
      · cases hd
    · exact (h.cells a cells ha k d hd).mono (by simp)

theorem Sound.store (h : m.Sound avail) {d : Datum} (hd : d.Known m.memory.size) (a n : Nat) :
    ({ m with memory := m.memory.modify a (·.setIfInBounds n d) } : Machine).Sound avail := by
  refine ⟨h.bound, fun v d' hv => ?_, fun b cells hb k d' hk => ?_⟩
  · simpa using h.env v d' hv
  · simp only [Array.size_modify]
    simp only [Array.getElem?_modify] at hb
    split at hb
    · obtain ⟨old, hold, rfl⟩ := Option.map_eq_some_iff.mp hb
      simp only [Array.getElem?_setIfInBounds] at hk
      split at hk
      · split at hk
        · cases hk
          exact hd
        · cases hk
      · exact h.cells b old hold k d' hk
    · exact h.cells b cells hb k d' hk

/-- An instruction of a live block whose reads are available keeps the machine sound and binds its result. -/
theorem execute_safe {b : BlockId} {i : Instr} (h : m.Sound avail) (hb : f.Live b) (hi : i ∈ f.instrsOf b)
    (hphi : i.isPhi = false) (hr : ∀ v ∈ i.reads, avail v) :
    Safe f limit (fun m' => m'.Sound fun v => avail v ∨ i.dest? = some v) (m.execute i.op) := by
  have readable : ∀ o ∈ i.op.operands, Readable avail o := fun o ho => readable_of_mem hr ho
  unfold Instr.dest?
  unfold Instr.isPhi at hphi
  cases hop : i.op with
  | assign d x =>
    rw [hop] at readable
    exact (read_safe h (readable x (by simp [Op.operands]))).bind fun _ hd => h.bind hd
  | unary op d x =>
    rw [hop] at readable
    exact (unary_safe h op (readable x (by simp [Op.operands]))).bind fun _ hd => h.bind hd
  | binary op d x y =>
    rw [hop] at readable
    refine (binary_safe h op (readable x ?_) (readable y ?_)).bind fun _ hd => h.bind hd <;> simp [Op.operands]
  | phi d sources => simp [hop, Op.isPhi] at hphi
  | alloc d size =>
    simp only [execute, allocate]
    split
    · exact (h.allocate size).bind (by simp [Datum.Known])
    · exact .arrayTooLarge hb hi hop (by omega)
  | shift d base offset =>
    rw [hop] at readable
    refine (readInt_safe h (readable offset (by simp [Op.operands]))).bind fun delta _ => ?_
    exact (readPtr_safe h (readable base (by simp [Op.operands]))).bind fun _ hp => h.bind hp
  | load d address =>
    rw [hop] at readable
    exact (locate_safe h (readable address (by simp [Op.operands]))).bind fun _ hc => h.bind hc.2
  | store address value =>
    rw [hop] at readable
    refine (read_safe h (readable value (by simp [Op.operands]))).bind fun d hd => ?_
    refine (locate_safe h (readable address (by simp [Op.operands]))).bind fun c _ => ?_
    exact (h.store hd c.1 c.2.1).mono fun v hv => hv.resolve_right (by simp [Op.dest?])
  | nop => exact h.mono fun v hv => hv.resolve_right (by simp [Op.dest?])

theorem tick_safe : Safe f limit (fun m' => m'.env = m.env ∧ m'.memory = m.memory) (m.tick limit) := by
  unfold tick
  split
  · exact ⟨rfl, rfl⟩
  · exact .budgetExhausted

/-- A straight line of a live block keeps the machine sound and binds all its results. -/
theorem runInstrs_safe {b : BlockId} {is : List Instr} (h : m.Sound avail) (hb : f.Live b)
    (hi : ∀ i ∈ is, i ∈ f.instrsOf b) (hphi : ∀ i ∈ is, i.isPhi = false) (hr : ReadsOk avail is) :
    Safe f limit (fun m' => m'.Sound fun v => avail v ∨ v ∈ is.filterMap Instr.dest?) (m.runInstrs limit is) := by
  induction is generalizing m avail with
  | nil => exact h.mono fun v hv => hv.resolve_right (by simp)
  | cons i rest ih =>
    rw [List.forall_mem_cons] at hi hphi
    refine tick_safe.bind fun m₁ h₁ => ?_
    refine (execute_safe (h.of_eq h₁.1 h₁.2) hb hi.1 hphi.1 (hr.1 hphi.1)).bind fun m₂ h₂ => ?_
    refine (ih h₂ hi.2 hphi.2 hr.2).mono fun m₃ h₃ => h₃.mono fun v hv => ?_
    simpa only [List.mem_filterMap, List.mem_cons, exists_eq_or_imp, or_assoc] using hv

/-! ## Control -/

theorem readAll_safe (h : m.Sound avail) {os : List Operand} (ho : ∀ o ∈ os, Readable avail o) :
    Safe f limit (fun _ => True) (m.readAll os) := by
  induction os with
  | nil => trivial
  | cons o rest ih =>
    rw [List.forall_mem_cons] at ho
    exact (read_safe h ho.1).bind fun _ _ => (ih ho.2).bind fun _ _ => trivial

/-- A terminator of a live block goes to a successor or ends the run. -/
theorem transfer_safe {b : BlockId} {t : Terminator} (h : m.Sound avail) (hb : f.Live b) (ht : f.term? b = some t)
    (hr : ∀ v ∈ valuesOf t.operands, avail v) :
    Safe f limit (fun tr => ∀ next, tr = .goto next → next ∈ f.successors b) (m.transfer b t) := by
  have succ : f.successors b = t.targets := by simp [Func.successors, ht]
  have readable : ∀ o ∈ t.operands, Readable avail o :=
    fun o ho v hv => hr v (List.mem_filterMap.mpr ⟨o, ho, hv⟩)
  rw [succ]
  cases t with
  | jump target =>
    rintro next h
    cases h
    simp [Terminator.targets]
  | branch c onTrue onFalse =>
    refine (readBool_safe h (readable c (by simp [Terminator.operands]))).bind fun x _ => ?_
    rintro next h
    cases h
    rw [mem_targets_branch]
    cases x <;> simp
  | ret vs =>
    refine (readAll_safe h readable).bind fun _ _ => ?_
    rintro next h
    cases h
  | unreachable => exact .unreachable hb ht

/-- Phis with one source for the edge they are entered on receive data for all of them. -/
theorem gather_safe {p b : BlockId} {is : List Instr} (h : m.Sound avail)
    (hs : ∀ i ∈ is, ∀ sources, i.sources? = some sources → sources.countP (·.1 == p) = 1 ∧
      ∀ s ∈ sources, s.1 = p → Readable avail s.2) :
    Safe f limit (fun r => (r.1.env = m.env ∧ r.1.memory = m.memory) ∧ (∀ q ∈ r.2, q.2.Known m.memory.size) ∧
      ∀ i ∈ is, i.isPhi = true → ∀ v, i.dest? = some v → v ∈ r.2.map Prod.fst) (m.gather limit p b is) := by
  induction is generalizing m with
  | nil => exact ⟨⟨rfl, rfl⟩, by simp, by simp⟩
  | cons i rest ih =>
    rw [List.forall_mem_cons] at hs
    unfold gather
    split
    · rename_i d sources hop
      obtain ⟨hone, hread⟩ := hs.1 sources (by simp [Instr.sources?, hop, Op.sources?])
      obtain ⟨s, hsm, hsp⟩ : ∃ s ∈ sources, (s.1 == p) = true := List.countP_pos_iff.mp (by omega)
      obtain ⟨s', hfind⟩ : ∃ s', sources.find? (·.1 == p) = some s' :=
        Option.isSome_iff_exists.mp (List.find?_isSome.mpr ⟨s, hsm, hsp⟩)
      have hs' : s'.1 = p := by simpa using List.find?_some hfind
      refine tick_safe.bind fun m₁ h₁ => ?_
      have hm₁ : m₁.Sound avail := h.of_eq h₁.1 h₁.2
      simp only [hfind]
      refine (read_safe hm₁ (hread s' (List.mem_of_find?_eq_some hfind) hs')).bind fun datum hdatum => ?_
      refine (ih hm₁ hs.2).bind fun r hr => ?_
      obtain ⟨m₂, more⟩ := r
      obtain ⟨⟨he, hmem⟩, hk, hb⟩ := hr
      rw [h₁.2] at hk hdatum
      refine ⟨⟨he.trans h₁.1, hmem.trans h₁.2⟩, List.forall_mem_cons.mpr ⟨hdatum, hk⟩, ?_⟩
      intro j hj hphi v hv
      rcases List.mem_cons.mp hj with rfl | hj
      · rw [Instr.dest?, hop] at hv
        exact List.mem_cons.mpr (Or.inl (Option.some.inj hv).symm)
      · exact List.mem_cons_of_mem _ (hb j hj hphi v hv)
    · rename_i hop
      refine (ih h hs.2).mono fun r hr => ⟨hr.1, hr.2.1, fun j hj hphi => ?_⟩
      rcases List.mem_cons.mp hj with rfl | hj
      · unfold Instr.isPhi Op.isPhi at hphi
        split at hphi
        · exact absurd ‹_› (hop _ _)
        · cases hphi
      · exact hr.2.2 j hj hphi

/-- The values bound when the phis of a block are: those available in front of it, and the phis. -/
def AvailableAt (f : Func) (b : BlockId) (v : ValueId) : Prop :=
  f.AvailableIn b v ∨ v ∈ (f.phisAt b).filterMap Instr.dest?

section Valid

variable (hf : f.Valid) {p b : BlockId}

include hf

/-- Entering a block over a live edge binds its phis. -/
theorem enter_safe (h : m.Sound (f.AvailableOut p)) (hp : f.Live p) (hs : b ∈ f.successors p) :
    Safe f limit (fun m' => m'.Sound (AvailableAt f b)) (m.enter f limit p b) := by
  have hb : f.Live b := hp.step hs
  obtain ⟨blk, hblk⟩ : ∃ blk, f.block? b = some blk :=
    ⟨_, List.getElem?_eq_getElem (hf.targets p b hs)⟩
  have hphis : f.phisAt b = blk.phis := by simp [Func.phisAt, hblk]
  have hmem : ∀ i ∈ blk.phis, i ∈ f.instrsOf b := by
    intro i hi
    rw [Func.instrsOf_eq hblk, ← Block.phis_append_body]
    exact List.mem_append_left _ hi
  have hsrc : ∀ i ∈ blk.phis, ∀ sources, i.sources? = some sources → sources.countP (·.1 == p) = 1 ∧
      ∀ s ∈ sources, s.1 = p → Readable (f.AvailableOut p) s.2 := by
    intro i hi sources hsrc
    have hok := hf.phis b hb i (hmem i hi) sources hsrc
    refine ⟨hok.once p hp hs, ?_⟩
    rintro s hsm rfl v hv
    exact hok.reads s hsm hp v hv
  simp only [enter, hblk]
  refine (gather_safe h hsrc).bind fun r hr => ?_
  obtain ⟨m', incoming⟩ := r
  obtain ⟨⟨he, hm⟩, hk, hbound⟩ := hr
  simp only at he hm
  refine ⟨fun v hv => ?_, fun v d hd => ?_, ?_⟩
  · refine Table.get?_insertAll_isSome ?_
    rcases hv with hv | hv
    · -- what is available in front of a block is available at the end of each predecessor
      refine Or.inr ?_
      rw [he]
      refine h.bound v (hv.imp_right ?_)
      rintro ⟨d, hd, hv⟩
      exact ⟨d, hd.2.of_step hd.1 hs, hv⟩
    · rw [hphis] at hv
      obtain ⟨i, hi, hd⟩ := List.mem_filterMap.mp hv
      exact Or.inl (hbound i hi (Block.isPhi_of_mem_phis hi) v hd)
  · simp only [hm]
    rcases Table.mem_or_get?_of_insertAll hd with hd | hd
    · exact hk _ hd
    · exact h.env v d (he ▸ hd)
  · simp only [hm]
    exact h.cells

/-- The straight line of a live block binds all that is available at its end. -/
theorem body_safe (h : m.Sound (AvailableAt f b)) (hb : f.Live b) {blk : Block} (hblk : f.block? b = some blk) :
    Safe f limit (fun m' => m'.Sound (f.AvailableOut b)) (m.runInstrs limit blk.body) := by
  have hphis : f.phisAt b = blk.phis := by simp [Func.phisAt, hblk]
  have hbody : f.bodyAt b = blk.body := by simp [Func.bodyAt, hblk]
  have hsplit : f.instrsOf b = blk.phis ++ blk.body := by rw [Func.instrsOf_eq hblk, Block.phis_append_body]
  have hreads := hf.reads b hb
  rw [hsplit, ReadsOk.append, ← hphis] at hreads
  have hmem : ∀ i ∈ blk.body, i ∈ f.instrsOf b := fun i hi => hsplit ▸ List.mem_append_right _ hi
  refine (runInstrs_safe h hb hmem (fun i hi => hf.phisFirst b i (hbody ▸ hi)) hreads.2).mono fun m' h' => ?_
  refine h'.mono fun v hv => ?_
  rw [Func.availableOut_iff, Func.destsAt, hsplit, List.filterMap_append, List.mem_append] at hv
  rw [AvailableAt, hphis, or_assoc]
  exact hv

/-- A run from the start of a live block on ends well or in an ordinary fault. -/
theorem runBlocks_safe (h : m.Sound (AvailableAt f b)) (hb : f.Live b) (hlt : b < f.blocks.length)
    (fuel visited : Nat) : Safe f limit (fun _ => True) (runBlocks f limit fuel m b visited) := by
  induction fuel generalizing m b visited with
  | zero => exact .budgetExhausted
  | succ k ih =>
    have hblk : f.block? b = some f.blocks[b] := List.getElem?_eq_getElem hlt
    have hterm : f.term? b = some f.blocks[b].term := by simp [Func.term?, hblk]
    simp only [runBlocks, hblk]
    refine (body_safe hf h hb hblk).bind fun m₁ h₁ => ?_
    refine tick_safe.bind fun m₂ h₂ => ?_
    have hm₂ : m₂.Sound (f.AvailableOut b) := h₁.of_eq h₂.1 h₂.2
    refine (transfer_safe hm₂ hb hterm (hf.termReads b hb _ hterm)).bind fun tr htr => ?_
    cases tr with
    | finish values => trivial
    | goto next =>
      have hs := htr next rfl
      exact (enter_safe hf hm₂ hb hs).bind fun m₃ h₃ => ih h₃ (hb.step hs) (hf.targets b next hs) _

end Valid

/-- The machine that a run starts with has the parameters bound to integers. -/
theorem sound_start (he : f.phisAt f.entry = []) {args : List Word}
    (ha : args.length = f.params.length) :
    ({ env := Table.ofList (f.params.zip (args.map .int)) } : Machine).Sound (AvailableAt f f.entry) := by
  refine ⟨fun v hv => ?_, fun v d hd => ?_, by simp⟩
  · rcases hv with (hv | ⟨d, hd, _⟩) | hv
    · refine Table.get?_insertAll_isSome (Or.inl ?_)
      rwa [List.map_fst_zip (by simp [ha])]
    · exact absurd (Func.eq_entry_of_dominates hd.2) hd.1
    · simp [he] at hv
  · rcases Table.mem_or_get?_of_insertAll hd with hd | hd
    · obtain ⟨n, _, rfl⟩ := List.mem_map.mp (List.of_mem_zip hd).2
      trivial
    · cases hd

end Machine

/-- **Valid functions cannot go structurally wrong.** Where the entry block has no phis and the arguments match the
parameters, a run within any budget returns, or it ends in a type mismatch, a division by zero, an access out of bounds,
an unreachable terminator, the end of the budget, or an allocation of more cells than an array can have. -/
theorem Func.run_ok_or_ordinary (f : Func) (hf : f.isValid = true) (he : f.phisAt f.entry = []) (args : List Word)
    (ha : args.length = f.params.length) (limit : Nat) :
    (∃ r, f.run args limit = .ok r) ∨ ∃ e, f.run args limit = .error e ∧ e.Ordinary f limit := by
  have hv := isValid_iff.mp hf
  have hs : Safe f limit (fun _ => True) (f.run args limit) := by
    rw [run, if_pos ha]
    exact Machine.runBlocks_safe hv (Machine.sound_start he ha) live_entry hv.entry _ _
  cases hrun : f.run args limit with
  | ok r => exact Or.inl ⟨r, rfl⟩
  | error e =>
    rw [hrun] at hs
    exact Or.inr ⟨e, rfl, hs⟩

/-- Counts up to its parameter. -/
def countUp : Func where
  name := "countUp"
  params := [0]
  blocks := [
    { term := .jump 1 },
    { instrs := [{ op := .phi 1 [(0, .lit (.int 0)), (1, .var 2)] }, { op := .binary .add 2 (.var 1) (.lit (.int 1)) },
        { op := .binary .lt 3 (.var 2) (.var 0) }],
      term := .branch (.var 3) 1 2 },
    { term := .ret [.var 2] }]

theorem countUp_run_ok_or_ordinary :
    countUp.isValid = true ∧ countUp.phisAt countUp.entry = [] ∧ [(7 : Word)].length = countUp.params.length ∧
      ((∃ r, countUp.run [7] 20 = .ok r) ∨ ∃ e, countUp.run [7] 20 = .error e ∧ e.Ordinary countUp 20) :=
  ⟨by decide, by decide, by decide, Func.run_ok_or_ordinary countUp (by decide) (by decide) [7] (by decide) 20⟩

/-- Makes an array that has more cells than an array can have. -/
def hugeAlloc : Func where
  name := "hugeAlloc"
  blocks := [{ instrs := [{ op := .alloc 0 4611686018427387904 }], term := .ret [] }]

/-- The size of an allocation is not part of validity, and no other fault stands for one that cannot be made. -/
theorem hugeAlloc_faults :
    hugeAlloc.isValid = true ∧ hugeAlloc.phisAt hugeAlloc.entry = [] ∧
      ([] : List Word).length = hugeAlloc.params.length ∧
      hugeAlloc.run [] defaultBudget = .error (.arrayTooLarge 4611686018427387904) := by
  refine ⟨by decide, by decide, by decide, rfl⟩

end SsaFusion
