import SsaFusion.Proofs.Flow.DomTree
import SsaFusion.Proofs.IR.Sites
import SsaFusion.Validity

/-!
# What validity means

The search for the first defect is a decision procedure. Here is what it decides, in terms of paths of the flow graph
and without positions: a value is available at the start of a block if it is a parameter or a block that strictly
dominates defines it, every read in a live block is of an available value, and phis match the live edges into their
block. `isValid_iff` ties the two; every later argument about valid functions starts from `Valid`.
-/

namespace SsaFusion

/-! ## Reads of a straight line -/

/-- Every instruction but a phi reads what is available in front of it, where each makes its result available. -/
def ReadsOk (avail : ValueId → Prop) : List Instr → Prop
  | [] => True
  | i :: rest =>
    (i.isPhi = false → ∀ v ∈ i.reads, avail v) ∧ ReadsOk (fun v => avail v ∨ i.dest? = some v) rest

namespace ReadsOk

variable {avail avail' : ValueId → Prop} {is is' : List Instr}

theorem mono (h : ReadsOk avail is) (hle : ∀ v, avail v → avail' v) : ReadsOk avail' is := by
  induction is generalizing avail avail' with
  | nil => trivial
  | cons i rest ih => exact ⟨fun hi v hv => hle v (h.1 hi v hv), ih h.2 fun v hv => hv.imp_left (hle v)⟩

theorem append :
    ReadsOk avail (is ++ is') ↔
      ReadsOk avail is ∧ ReadsOk (fun v => avail v ∨ v ∈ is.filterMap Instr.dest?) is' := by
  induction is generalizing avail with
  | nil => simp [ReadsOk]
  | cons i rest ih =>
    simp only [List.cons_append, ReadsOk, ih, and_assoc]
    refine and_congr_right fun _ => and_congr_right fun _ => ?_
    have : (fun v => (avail v ∨ i.dest? = some v) ∨ v ∈ rest.filterMap Instr.dest?) =
        fun v => avail v ∨ v ∈ (i :: rest).filterMap Instr.dest? := by
      funext v
      simp only [List.mem_filterMap, List.mem_cons, exists_eq_or_imp, or_assoc]
    rw [this]

/-- Reads do not depend on the sources of phis. -/
theorem map {g : Instr → Instr} (hdest : ∀ i, (g i).dest? = i.dest?) (hphi : ∀ i, (g i).isPhi = i.isPhi)
    (hreads : ∀ i, i.isPhi = false → (g i).reads = i.reads) : ReadsOk avail (is.map g) ↔ ReadsOk avail is := by
  induction is generalizing avail with
  | nil => rfl
  | cons i rest ih =>
    simp only [List.map_cons, ReadsOk, hdest, hphi, ih]
    refine and_congr_left fun _ => forall_congr' fun hi => ?_
    rw [hreads i hi]

/-- The same by positions: what an instruction reads is available before or defined at an earlier position. -/
theorem iff_index :
    ReadsOk avail is ↔ ∀ (n : Nat) (i : Instr), is[n]? = some i → i.isPhi = false → ∀ v ∈ i.reads,
      avail v ∨ ∃ m < n, ∃ j : Instr, is[m]? = some j ∧ j.dest? = some v := by
  induction is generalizing avail with
  | nil => simp [ReadsOk]
  | cons i rest ih =>
    rw [ReadsOk, ih]
    constructor
    · rintro ⟨hi, hrest⟩ n j hj hphi v hv
      cases n with
      | zero =>
        obtain rfl : i = j := by simpa using hj
        exact Or.inl (hi hphi v hv)
      | succ n =>
        rcases hrest n j (by simpa using hj) hphi v hv with (h | h) | ⟨m, hm, k, hk, hd⟩
        · exact Or.inl h
        · exact Or.inr ⟨0, by omega, i, rfl, h⟩
        · exact Or.inr ⟨m + 1, by omega, k, by simpa using hk, hd⟩
    · intro h
      refine ⟨fun hphi v hv => ?_, fun n j hj hphi v hv => ?_⟩
      · rcases h 0 i rfl hphi v hv with h | ⟨m, hm, _⟩
        · exact h
        · omega
      · rcases h (n + 1) j (by simpa using hj) hphi v hv with h | ⟨m, hm, k, hk, hd⟩
        · exact Or.inl (Or.inl h)
        · cases m with
          | zero =>
            obtain rfl : i = k := by simpa using hk
            exact Or.inl (Or.inr hd)
          | succ m => exact Or.inr ⟨m, by omega, k, by simpa using hk, hd⟩

end ReadsOk

namespace Func

variable {f : Func} {b : BlockId} {v : ValueId}

/-! ## Valid functions -/

/-- A value is defined on every path to the start of a block. -/
def AvailableIn (f : Func) (b : BlockId) (v : ValueId) : Prop :=
  v ∈ f.params ∨ ∃ d, f.StrictlyDominates d b ∧ v ∈ f.destsAt d

/-- A value is defined on every path to the end of a block. -/
def AvailableOut (f : Func) (b : BlockId) (v : ValueId) : Prop :=
  v ∈ f.params ∨ ∃ d, f.Dominates d b ∧ v ∈ f.destsAt d

theorem availableOut_iff : f.AvailableOut b v ↔ f.AvailableIn b v ∨ v ∈ f.destsAt b := by
  constructor
  · rintro (h | ⟨d, hd, hv⟩)
    · exact Or.inl (Or.inl h)
    · by_cases e : d = b
      · exact Or.inr (e ▸ hv)
      · exact Or.inl (Or.inr ⟨d, ⟨e, hd⟩, hv⟩)
  · rintro ((h | ⟨d, hd, hv⟩) | h)
    · exact Or.inl h
    · exact Or.inr ⟨d, hd.2, hv⟩
    · exact Or.inr ⟨b, .refl b, h⟩

/-- The sources of a phi fit the edges into its block: there is one for each live predecessor, none for other blocks,
and a live source reads what is available at its end. -/
structure PhiOk (f : Func) (b : BlockId) (sources : List (BlockId × Operand)) : Prop where
  edges : ∀ s ∈ sources, b ∈ f.successors s.1
  once : ∀ p, f.Live p → b ∈ f.successors p → sources.countP (·.1 == p) = 1
  reads : ∀ s ∈ sources, f.Live s.1 → ∀ v, s.2.var? = some v → f.AvailableOut s.1 v

/-- A well-formed function: its edges end in blocks, phis open their blocks, values are defined once, and live blocks
read only what is available. -/
structure Valid (f : Func) : Prop where
  entry : f.entry < f.blocks.length
  targets : ∀ b, ∀ t ∈ f.successors b, t < f.blocks.length
  phisFirst : ∀ b, ∀ i ∈ f.bodyAt b, i.isPhi = false
  once : f.defined.Nodup
  reads : ∀ b, f.Live b → ReadsOk (f.AvailableIn b) (f.instrsOf b)
  termReads : ∀ b, f.Live b → ∀ t, f.term? b = some t → ∀ v ∈ valuesOf t.operands, f.AvailableOut b v
  phis : ∀ b, f.Live b → ∀ i ∈ f.instrsOf b, ∀ sources, i.sources? = some sources → f.PhiOk b sources

/-- Live blocks are there. -/
theorem Valid.live_lt (h : f.Valid) (hb : f.Live b) : b < f.blocks.length := by
  rw [live_iff_reaches] at hb
  cases hb with
  | refl => exact h.entry
  | tail hr hs _ => exact h.targets _ _ hs

/-! ## The search for defects -/

theorem firstRepeat_eq_none {α : Type} [DecidableEq α] {seen l : List α} :
    firstRepeat seen l = none ↔ l.Nodup ∧ ∀ a ∈ l, a ∉ seen := by
  induction l generalizing seen with
  | nil => simp [firstRepeat]
  | cons a rest ih =>
    unfold firstRepeat
    split
    · rename_i h
      exact iff_of_false (by simp) fun hs => hs.2 a (List.mem_cons_self ..) (by simpa using h)
    · rename_i h
      rw [ih, List.nodup_cons]
      constructor
      · rintro ⟨hn, hseen⟩
        refine ⟨⟨fun ha => hseen a ha (List.mem_cons_self ..), hn⟩, fun x hx => ?_⟩
        rcases List.mem_cons.mp hx with rfl | hx
        · simpa using h
        · exact fun hs => hseen x hx (List.mem_cons_of_mem _ hs)
      · rintro ⟨⟨ha, hn⟩, hseen⟩
        refine ⟨hn, fun x hx hs => ?_⟩
        rcases List.mem_cons.mp hs with rfl | hs
        · exact ha hx
        · exact hseen x (List.mem_cons_of_mem _ hx) hs

theorem layoutDefect?_eq_none :
    f.layoutDefect? = none ↔
      (∀ b, ∀ t ∈ f.successors b, t < f.blocks.length) ∧ ∀ b, ∀ i ∈ f.bodyAt b, i.isPhi = false := by
  simp only [layoutDefect?, List.findSome?_eq_none_iff, Prod.forall, mem_numbered, Option.orElse_eq_orElse,
    Option.orElse_eq_or, Option.or_eq_none_iff, danglingTarget?, misplacedPhi?, Option.map_eq_none_iff, List.find?_eq_none,
    List.findIdx?_eq_none_iff, hasBlock, Bool.not_eq_true', Bool.not_eq_false, decide_eq_true_eq,
    mem_successors, bodyAt]
  constructor
  · intro h
    refine ⟨?_, fun b i hi => ?_⟩
    · rintro b t ⟨blk, hb, ht⟩
      exact (h blk b hb).1 t ht
    · cases hb : f.block? b with
      | none => simp [hb] at hi
      | some blk => exact (h blk b hb).2 i (by simpa [hb] using hi)
  · rintro ⟨ht, hp⟩ blk b hb
    exact ⟨fun t h => ht b t ⟨blk, hb, h⟩, fun i hi => hp b i (by simpa [hb] using hi)⟩

section Reads

variable (hn : f.defined.Nodup) (hb : f.Live b)

include hn hb

/-- A read has no defect if the value is available at the start of the block or defined at an earlier position. -/
theorem readDefect?_eq_none {pos : Option Nat} :
    f.readDefect? f.dominators b pos v = none ↔
      f.AvailableIn b v ∨ ∃ m i, f.instrAt? b m = some i ∧ i.dest? = some v ∧ ∀ p, pos = some p → m < p := by
  unfold readDefect?
  split
  · rename_i h
    obtain ⟨hp, hd⟩ := site?_eq_none_iff.mp h
    refine iff_of_false (by simp) ?_
    rintro ((h | ⟨d, _, h⟩) | ⟨m, i, hi, h, _⟩)
    · exact hp h
    · exact hd (mem_dests.mpr ⟨d, h⟩)
    · exact hd (mem_dests.mpr ⟨b, mem_destsAt_iff_index.mpr ⟨m, i, hi, h⟩⟩)
  · rename_i h
    exact iff_of_true rfl (Or.inl (Or.inl (site?_eq_param_iff.mp h)))
  · rename_i d n h
    obtain ⟨i, hi, hdest⟩ := (site?_eq_instr_iff hn).mp h
    have hv : v ∈ f.destsAt d := mem_destsAt_iff_index.mpr ⟨n, i, hi, hdest⟩
    have hin : f.AvailableIn b v ↔ f.StrictlyDominates d b := by
      constructor
      · rintro (h | ⟨d', h, hv'⟩)
        · exact absurd h (not_mem_params hn hv)
        · exact destsAt_unique hn hv' hv ▸ h
      · exact fun h => Or.inr ⟨d, h, hv⟩
    rw [hin]
    by_cases e : d = b
    · subst e
      have hpos : (pos.all fun p => decide (n < p)) = true ↔ ∀ p, pos = some p → n < p := by
        cases pos <;> simp
      simp only [ite_eq_left_iff, reduceCtorEq, imp_false, not_not, if_true, hpos]
      constructor
      · exact fun h => Or.inr ⟨n, i, hi, hdest, h⟩
      · rintro (h | ⟨m, j, hj, hd, h⟩)
        · exact absurd rfl h.1
        · exact instrAt?_unique hn hj hi hd hdest ▸ h
    · simp only [ite_eq_left_iff, reduceCtorEq, imp_false, not_not, if_neg e, dominators_dominates_of_live hb]
      constructor
      · exact fun h => Or.inl ⟨e, h⟩
      · rintro (h | ⟨m, j, hj, hd, _⟩)
        · exact h.2
        · exact absurd (destsAt_unique hn hv (mem_destsAt_iff_index.mpr ⟨m, j, hj, hd⟩)) e

theorem readDefect?_end : f.readDefect? f.dominators b none v = none ↔ f.AvailableOut b v := by
  rw [readDefect?_eq_none hn hb, availableOut_iff, mem_destsAt_iff_index]
  simp

theorem readDefect?_length :
    f.readDefect? f.dominators b (some (f.instrsOf b).length) v = none ↔ f.AvailableOut b v := by
  rw [readDefect?_eq_none hn hb, availableOut_iff, mem_destsAt_iff_index]
  refine or_congr_right ⟨?_, ?_⟩
  · rintro ⟨m, i, hi, hd, _⟩
    exact ⟨m, i, hi, hd⟩
  · rintro ⟨m, i, hi, hd⟩
    obtain ⟨hlt, _⟩ := List.getElem?_eq_some_iff.mp hi
    refine ⟨m, i, hi, hd, fun p hp => ?_⟩
    cases hp
    exact hlt

omit hb in
theorem phiDefect?_eq_none {phi : ValueId} {sources : List (BlockId × Operand)} :
    f.phiDefect? f.dominators f.reachable b phi sources = none ↔ f.PhiOk b sources := by
  simp only [phiDefect?, Option.orElse_eq_orElse, Option.orElse_eq_or, Option.or_eq_none_iff, List.findSome?_eq_none_iff,
    ite_eq_left_iff, reduceCtorEq, imp_false, not_not, List.contains_iff_mem, mem_predecessors, List.mem_filter,
    mem_reachable, and_imp]
  constructor
  · rintro ⟨hedges, honce, hreads⟩
    refine ⟨hedges, fun p hp hs => honce p hs hp, fun s hs hl v hv => ?_⟩
    have := hreads s hs hl
    rw [hv, Option.bind_some] at this
    exact (readDefect?_end hn hl).mp this
  · intro h
    refine ⟨h.edges, fun p hs hp => h.once p hp hs, fun s hs hl => ?_⟩
    cases hv : s.2.var? with
    | none => rfl
    | some v => exact (readDefect?_end hn hl).mpr (h.reads s hs hl v hv)

theorem instrDefect?_eq_none {n : Nat} {i : Instr} :
    f.instrDefect? f.dominators f.reachable b n i = none ↔
      (∀ sources, i.sources? = some sources → f.PhiOk b sources) ∧
      (i.isPhi = false → ∀ v ∈ i.reads,
        f.AvailableIn b v ∨ ∃ m < n, ∃ j, (f.instrsOf b)[m]? = some j ∧ j.dest? = some v) := by
  have hread : ∀ v, f.readDefect? f.dominators b (some n) v = none ↔
      f.AvailableIn b v ∨ ∃ m < n, ∃ j, (f.instrsOf b)[m]? = some j ∧ j.dest? = some v := by
    intro v
    rw [readDefect?_eq_none hn hb]
    refine or_congr_right ⟨?_, ?_⟩
    · rintro ⟨m, j, hj, hd, hm⟩
      exact ⟨m, hm n rfl, j, hj, hd⟩
    · rintro ⟨m, hm, j, hj, hd⟩
      exact ⟨m, j, hj, hd, fun p hp => Option.some.inj hp ▸ hm⟩
  unfold instrDefect?
  split
  · rename_i d sources h
    simp [phiDefect?_eq_none hn, Instr.sources?, Instr.isPhi, h, Op.sources?, Op.isPhi]
  · rename_i h
    have hs : i.sources? = none := by
      unfold Instr.sources? Op.sources?
      split
      · exact absurd ‹_› (h _ _)
      · rfl
    have hp : i.isPhi = false := by
      unfold Instr.isPhi Op.isPhi
      split
      · exact absurd ‹_› (h _ _)
      · rfl
    simp [hs, hp, List.findSome?_eq_none_iff, hread]

theorem blockDefect?_eq_none {blk : Block} (hblk : f.block? b = some blk) :
    f.blockDefect? f.dominators f.reachable b blk = none ↔
      (∀ i ∈ f.instrsOf b, ∀ sources, i.sources? = some sources → f.PhiOk b sources) ∧
      ReadsOk (f.AvailableIn b) (f.instrsOf b) ∧
      ∀ v ∈ valuesOf blk.term.operands, f.AvailableOut b v := by
  have hterm : blk.term.uses.findSome? (f.readDefect? f.dominators b (some blk.instrs.length)) = none ↔
      ∀ v ∈ valuesOf blk.term.operands, f.AvailableOut b v := by
    rw [← instrsOf_eq hblk, List.findSome?_eq_none_iff]
    simp only [Terminator.uses, mem_distinct, readDefect?_length hn hb]
  unfold blockDefect?
  rw [Option.orElse_eq_orElse, Option.orElse_eq_or, Option.or_eq_none_iff, hterm, ← and_assoc]
  refine and_congr_left fun _ => ?_
  rw [ReadsOk.iff_index, List.findSome?_eq_none_iff, instrsOf_eq hblk]
  simp only [Prod.forall, List.mk_mem_zipIdx_iff_getElem?, instrDefect?_eq_none hn hb, instrsOf_eq hblk]
  constructor
  · intro h
    refine ⟨fun i hi => ?_, fun n i hi => (h i n hi).2⟩
    obtain ⟨n, hn⟩ := List.getElem?_of_mem hi
    exact (h i n hn).1
  · exact fun h i n hi => ⟨h.1 i (List.mem_of_getElem? hi), h.2 n i hi⟩

omit hb in
theorem readsDefect?_eq_none :
    f.readsDefect? f.dominators = none ↔
      ∀ b, f.Live b → (∀ i ∈ f.instrsOf b, ∀ sources, i.sources? = some sources → f.PhiOk b sources) ∧
        ReadsOk (f.AvailableIn b) (f.instrsOf b) ∧
        ∀ t, f.term? b = some t → ∀ v ∈ valuesOf t.operands, f.AvailableOut b v := by
  simp only [readsDefect?, List.findSome?_eq_none_iff, List.mem_filter, Prod.forall, mem_numbered,
    List.contains_iff_mem, mem_reachable, and_imp]
  constructor
  · intro h b hb
    cases hblk : f.block? b with
    | none => simp [instrsOf, term?, hblk, ReadsOk]
    | some blk =>
      obtain ⟨hp, hr, ht⟩ := (blockDefect?_eq_none hn hb hblk).mp (h blk b hblk hb)
      refine ⟨hp, hr, fun t h' => ?_⟩
      obtain rfl : blk.term = t := by simpa [term?, hblk] using h'
      exact ht
  · intro h blk b hblk hb
    obtain ⟨hp, hr, ht⟩ := h b hb
    exact (blockDefect?_eq_none hn hb hblk).mpr ⟨hp, hr, ht _ (by simp [term?, hblk])⟩

end Reads

/-- The search finds no defect exactly in well-formed functions. -/
theorem isValid_iff : f.isValid = true ↔ f.Valid := by
  simp only [isValid, Option.isNone_iff_eq_none, defect?, Option.orElse_eq_orElse, Option.orElse_eq_or, Option.or_eq_none_iff,
    layoutDefect?_eq_none, Option.map_eq_none_iff, firstRepeat_eq_none, hasBlock, ite_eq_left_iff, reduceCtorEq,
    imp_false, not_not, decide_eq_true_eq]
  constructor
  · rintro ⟨he, ⟨ht, hp⟩, ⟨hn, _⟩, hr⟩
    have hr := (readsDefect?_eq_none hn).mp hr
    exact ⟨he, ht, hp, hn, fun b hb => (hr b hb).2.1, fun b hb => (hr b hb).2.2, fun b hb => (hr b hb).1⟩
  · intro h
    refine ⟨h.entry, ⟨h.targets, h.phisFirst⟩, ⟨h.once, by simp⟩, (readsDefect?_eq_none h.once).mpr fun b hb => ?_⟩
    exact ⟨h.phis b hb, h.reads b hb, h.termReads b hb⟩

end Func

end SsaFusion
