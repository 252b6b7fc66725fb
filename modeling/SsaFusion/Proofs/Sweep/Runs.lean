import SsaFusion.Pipeline.Pass
import SsaFusion.Proofs.Machine.Frame
import SsaFusion.Proofs.Sweep.Validity

/-!
# Runs of swept functions

A sweep keeps every run that ends well: the swept function returns the same data over the same number of blocks, in no
more steps (`run_deadCode`). Removing blocks and removing instructions are both an instance of one relation between two
functions, `Mirrors`: block by block, the second has the instructions of the first up to some whose result does not
matter. The two run in lockstep, over machines that agree on the values that matter (`Mirrors.runBlocks`).
-/

namespace SsaFusion

/-- A result as good as another: the same data over the same number of blocks, in no more steps. -/
structure RunResult.Matches (r r' : RunResult) : Prop where
  values : r'.values = r.values
  visited : r'.visited = r.visited
  steps : r'.steps ≤ r.steps

/-- Every run of `f` that ends well is matched by a run of `g`. -/
def Func.Follows (g f : Func) : Prop :=
  ∀ args limit r, f.run args limit = .ok r → ∃ r', g.run args limit = .ok r' ∧ r.Matches r'

theorem Func.Follows.trans {f g h : Func} (hgf : g.Follows f) (hhg : h.Follows g) : h.Follows f := by
  intro args limit r hr
  obtain ⟨r₁, hr₁, h₁⟩ := hgf args limit r hr
  obtain ⟨r₂, hr₂, h₂⟩ := hhg args limit r₁ hr₁
  exact ⟨r₂, hr₂, h₂.values.trans h₁.values, h₂.visited.trans h₁.visited, h₂.steps.trans h₁.steps⟩

/-- Block `φ b` of `g` mirrors the live block `b` of `f`: it has the instructions that are kept, its phis edited by `ψ`.
What is kept reads values that matter only, and what is dropped has no effect and no result that matters. -/
structure Mirrors (f g : Func) (φ : BlockId → BlockId) (ψ : Instr → Instr) (keep : Instr → Bool)
    (good : ValueId → Prop) : Prop where
  entry : g.entry = φ f.entry
  params : g.params = f.params
  block : ∀ b, f.Live b → ∀ blk, f.block? b = some blk → ∃ blk', g.block? (φ b) = some blk' ∧
    blk'.phis = (blk.phis.filter keep).map ψ ∧ blk'.body = blk.body.filter keep ∧ blk'.term = blk.term.mapTargets φ
  kept : ∀ b, f.Live b → ∀ i ∈ f.instrsOf b, keep i = true → ∀ v ∈ i.reads, good v
  dropped : ∀ b, f.Live b → ∀ i ∈ f.instrsOf b, keep i = false → i.hasEffect = false ∧ ∀ d, i.dest? = some d → ¬good d
  term : ∀ b, f.Live b → ∀ t, f.term? b = some t → ∀ v ∈ valuesOf t.operands, good v
  /-- An edited phi takes the same operand on an edge. -/
  source : ∀ a b, f.Live a → b ∈ f.successors a → ∀ i ∈ f.phisAt b, ∀ d sources, i.op = .phi d sources →
    ∃ sources', (ψ i).op = .phi d sources' ∧
      (sources'.find? (·.1 == φ a)).map Prod.snd = (sources.find? (·.1 == a)).map Prod.snd

namespace Machine

variable {m m' m₁ : Machine} {limit : Nat} {good : ValueId → Prop}

theorem readable_of_valuesOf {os : List Operand} (h : ∀ v ∈ valuesOf os, good v) : ∀ o ∈ os, Readable good o := by
  intro o ho v hv
  exact h v (List.mem_filterMap.mpr ⟨o, ho, hv⟩)

namespace Agrees

variable (h : Agrees good m m')

include h

/-- The instructions that are kept do on one side what all do on the other. -/
theorem runInstrs {keep : Instr → Bool} {is : List Instr} (hkept : ∀ i ∈ is, keep i = true → ∀ v ∈ i.reads, good v)
    (hdrop : ∀ i ∈ is, keep i = false → i.hasEffect = false ∧ ∀ d, i.dest? = some d → ¬good d)
    (hr : m.runInstrs limit is = .ok m₁) :
    ∃ m₁', m'.runInstrs limit (is.filter keep) = .ok m₁' ∧ Agrees good m₁ m₁' := by
  induction is generalizing m m' with
  | nil =>
    cases hr
    exact ⟨m', rfl, h⟩
  | cons i rest ih =>
    rw [List.forall_mem_cons] at hkept hdrop
    obtain ⟨m₂, htick, hr⟩ := bind_eq_ok hr
    obtain ⟨m₃, hexec, hr⟩ := bind_eq_ok hr
    cases hk : keep i with
    | true =>
      obtain ⟨m₂', htick', h₂⟩ := h.tick htick
      obtain ⟨m₃', hexec', h₃⟩ := h₂.execute (readable_of_valuesOf (hkept.1 hk)) hexec
      obtain ⟨m₁', hr', h₁⟩ := ih h₃ hkept.2 hdrop.2 hr
      refine ⟨m₁', ?_, h₁⟩
      rw [List.filter_cons_of_pos hk, Machine.runInstrs, htick', ok_bind, hexec', ok_bind, hr']
    | false =>
      obtain ⟨hpure, hdest⟩ := hdrop.1 hk
      rw [List.filter_cons_of_neg (by simp [hk])]
      exact ih ((h.tick_left htick).execute_left hpure hdest hexec) hkept.2 hdrop.2 hr

/-- Control goes to the mirrored block, or the same data are returned. -/
theorem transfer {φ : BlockId → BlockId} {b c : BlockId} {t : Terminator} {result : Transfer}
    (ht : ∀ v ∈ valuesOf t.operands, good v) (hr : m.transfer b t = .ok result) :
    m'.transfer c (t.mapTargets φ) = .ok (match result with | .goto n => .goto (φ n) | .finish vs => .finish vs) := by
  have ht := readable_of_valuesOf ht
  cases t with
  | jump target =>
    cases hr
    rfl
  | branch cond onTrue onFalse =>
    have hc := h.readBool (ht cond (by simp [Terminator.operands]))
    obtain ⟨x, hx, hr⟩ := bind_eq_ok hr
    cases hr
    simp only [Machine.transfer, Terminator.mapTargets, hc, hx]
    cases x <;> rfl
  | ret vs =>
    have hvs : m'.readAll vs = m.readAll vs := h.readAll ht
    obtain ⟨ds, hds, hr⟩ := bind_eq_ok hr
    cases hr
    simp only [Machine.transfer, Terminator.mapTargets, hvs, hds]
    rfl
  | unreachable => cases hr

/-- Phis that are kept receive on one side what they do on the other. -/
theorem gather {keep : Instr → Bool} {ψ : Instr → Instr} {a a' b c : BlockId} {is : List Instr}
    (hphi : ∀ i ∈ is, i.isPhi = true)
    (hkept : ∀ i ∈ is, keep i = true → ∀ v ∈ i.reads, good v)
    (hdrop : ∀ i ∈ is, keep i = false → ∀ d, i.dest? = some d → ¬good d)
    (hsource : ∀ i ∈ is, ∀ d sources, i.op = .phi d sources → ∃ sources', (ψ i).op = .phi d sources' ∧
      (sources'.find? (·.1 == a')).map Prod.snd = (sources.find? (·.1 == a)).map Prod.snd)
    {incoming : List (ValueId × Datum)} (hg : m.gather limit a b is = .ok (m₁, incoming)) :
    ∃ m₁' incoming', m'.gather limit a' c ((is.filter keep).map ψ) = .ok (m₁', incoming') ∧ Agrees good m₁ m₁' ∧
      ∀ t t' : Table ValueId Datum, (∀ v, good v → t'.get? v = t.get? v) →
        ∀ v, good v → (t'.insertAll incoming').get? v = (t.insertAll incoming).get? v := by
  induction is generalizing m m' m₁ incoming with
  | nil =>
    cases hg
    exact ⟨m', [], rfl, h, fun _ _ ht => ht⟩
  | cons i rest ih =>
    rw [List.forall_mem_cons] at hphi hkept hdrop hsource
    obtain ⟨d, sources, hop⟩ := Instr.eq_phi_of_isPhi hphi.1
    rw [Machine.gather, hop] at hg
    obtain ⟨m₂, htick, hg⟩ := bind_eq_ok hg
    cases hfind : sources.find? (·.1 == a) with
    | none =>
      rw [hfind] at hg
      cases hg
    | some s =>
      rw [hfind] at hg
      obtain ⟨x, hread, hg⟩ := bind_eq_ok hg
      obtain ⟨⟨m₃, more⟩, hrest, hg⟩ := bind_eq_ok hg
      cases hg
      cases hk : keep i with
      | true =>
        obtain ⟨sources', hop', hfind'⟩ := hsource.1 d sources hop
        rw [hfind, Option.map_some] at hfind'
        obtain ⟨s', hs', hsame⟩ := Option.map_eq_some_iff.mp hfind'
        obtain ⟨m₂', htick', h₂⟩ := h.tick htick
        have hmem : s.2 ∈ i.operands := by
          rw [Instr.operands, hop]
          exact List.mem_map_of_mem (List.mem_of_find?_eq_some hfind)
        have hread' : m₂'.read s'.2 = .ok x := by
          rw [hsame, h₂.read (readable_of_valuesOf (hkept.1 hk) _ hmem), hread]
        obtain ⟨m₁', more', hg', h₁, hsame⟩ := ih h₂ hphi.2 hkept.2 hdrop.2 hsource.2 hrest
        refine ⟨m₁', (d, x) :: more', ?_, h₁, fun t t' ht => ?_⟩
        · rw [List.filter_cons_of_pos hk, List.map_cons, Machine.gather, hop', htick']
          simp only [ok_bind, hs', hread', hg']
        · refine hsame _ _ fun v hv => ?_
          rw [Table.get?_insert, Table.get?_insert, ht v hv]
      | false =>
        obtain ⟨m₁', more', hg', h₁, hsame⟩ := ih (h.tick_left htick) hphi.2 hkept.2 hdrop.2 hsource.2 hrest
        rw [List.filter_cons_of_neg (by simp [hk])]
        refine ⟨m₁', more', hg', h₁, fun t t' ht => hsame _ _ fun v hv => ?_⟩
        have hne : d ≠ v := fun e => hdrop.1 hk v (by rw [Instr.dest?, hop, e]; rfl) hv
        rw [Table.get?_insert, if_neg hne, ht v hv]

end Agrees

end Machine

namespace Mirrors

variable {f g : Func} {φ : BlockId → BlockId} {ψ : Instr → Instr} {keep : Instr → Bool} {good : ValueId → Prop}
  {m m' m₁ : Machine} {limit : Nat} {a b : BlockId}

variable (M : Mirrors f g φ ψ keep good)

include M

/-- Entering a block along an edge. -/
theorem enter (h : m.Agrees good m') (ha : f.Live a) (hab : b ∈ f.successors a) (he : m.enter f limit a b = .ok m₁) :
    ∃ m₁', m'.enter g limit (φ a) (φ b) = .ok m₁' ∧ m₁.Agrees good m₁' := by
  have hb := ha.step hab
  unfold Machine.enter at he
  cases hblk : f.block? b with
  | none =>
    rw [hblk] at he
    cases he
  | some blk =>
    rw [hblk] at he
    obtain ⟨⟨m₂, incoming⟩, hg, he⟩ := bind_eq_ok he
    cases he
    obtain ⟨blk', hblk', hphis, -, -⟩ := M.block b hb blk hblk
    have hinstr : ∀ i ∈ blk.phis, i ∈ f.instrsOf b := fun i hi => by
      rw [Func.instrsOf_eq hblk]
      exact Block.mem_instrs_of_mem_phis hi
    have hsource := M.source a b ha hab
    rw [Func.phisAt, hblk] at hsource
    obtain ⟨m₂', incoming', hg', h₂, hsame⟩ := h.gather (c := φ b) (fun i => Block.isPhi_of_mem_phis)
      (fun i hi => M.kept b hb i (hinstr i hi)) (fun i hi hk => (M.dropped b hb i (hinstr i hi) hk).2) hsource hg
    refine ⟨{ m₂' with env := m₂'.env.insertAll incoming' }, ?_, hsame _ _ h₂.env, h₂.memory, h₂.steps⟩
    unfold Machine.enter
    rw [hblk']
    simp only [hphis, hg']
    rfl

/-- **Lockstep.** From machines that agree, the mirroring function runs through the mirrored blocks. -/
theorem runBlocks (h : m.Agrees good m') (hb : f.Live b) {fuel visited : Nat} {r : RunResult}
    (hr : SsaFusion.runBlocks f limit fuel m b visited = .ok r) :
    ∃ r', SsaFusion.runBlocks g limit fuel m' (φ b) visited = .ok r' ∧ r.Matches r' := by
  induction fuel generalizing m m' b visited with
  | zero => cases hr
  | succ k ih =>
    unfold SsaFusion.runBlocks at hr ⊢
    cases hblk : f.block? b with
    | none =>
      rw [hblk] at hr
      cases hr
    | some blk =>
      rw [hblk] at hr
      obtain ⟨m₁, hbody, hr⟩ := bind_eq_ok hr
      obtain ⟨m₂, htick, hr⟩ := bind_eq_ok hr
      obtain ⟨result, htrans, hr⟩ := bind_eq_ok hr
      obtain ⟨blk', hblk', -, hbody', hterm'⟩ := M.block b hb blk hblk
      have hinstr : ∀ i ∈ blk.body, i ∈ f.instrsOf b := fun i hi => by
        rw [Func.instrsOf_eq hblk]
        exact Block.mem_instrs_of_mem_body hi
      have hterm := f.term?_eq hblk
      obtain ⟨m₁', hrun', h₁⟩ := h.runInstrs (fun i hi => M.kept b hb i (hinstr i hi))
        (fun i hi => M.dropped b hb i (hinstr i hi)) hbody
      obtain ⟨m₂', htick', h₂⟩ := h₁.tick htick
      have htrans' := h₂.transfer (φ := φ) (c := φ b) (M.term b hb _ hterm) htrans
      rw [hblk']
      simp only [hbody', hrun', hterm', htick', htrans', ok_bind]
      cases result with
      | finish values =>
        cases hr
        exact ⟨_, rfl, rfl, rfl, h₂.steps⟩
      | goto next =>
        have hnext := Machine.transfer_mem hterm htrans
        obtain ⟨m₃, henter, hr⟩ := bind_eq_ok hr
        obtain ⟨m₃', henter', h₃⟩ := M.enter h₂ hb hnext henter
        simp only [henter', ok_bind]
        exact ih h₃ (hb.step hnext) hr

theorem follows : g.Follows f := by
  intro args limit r hr
  unfold Func.run at hr ⊢
  rw [M.params, M.entry]
  split at hr
  · rw [if_pos ‹_›]
    exact M.runBlocks (.refl _) Func.live_entry hr
  · cases hr

end Mirrors

namespace Func

variable {f : Func} {a b : BlockId} {v : ValueId}

/-! ## Removing dead instructions -/

theorem LiveValid.mirrors_prune {excused : ValueId → Prop} (h : f.LiveValid excused) :
    Mirrors f f.prune id id (isLive f.reads) (· ∈ f.reads) where
  entry := rfl
  params := rfl
  block b hb blk hblk := by
    have hphi : ∀ i ∈ blk.body, i.isPhi = false := fun i hi => h.phisFirst b hb i (by simpa [bodyAt, hblk])
    obtain ⟨hphis, hbody⟩ := blk.split_filter (isLive f.reads) hphi
    refine ⟨_, by rw [id, block?_prune, hblk]; rfl, by rw [hphis, List.map_id], hbody, ?_⟩
    cases blk.term <;> rfl
  kept b _ i hi _ v hv := mem_reads_of_instr hi hv
  dropped b _ i _ hk := by
    refine ⟨?_, fun d hd hread => by simp [isLive_of_read hd hread] at hk⟩
    rw [isLive, Bool.or_eq_false_iff] at hk
    exact hk.1
  term b _ t ht v hv := mem_reads_of_term ht hv
  source a b _ _ i _ d sources hop := ⟨sources, hop, rfl⟩

/-! ## Removing blocks -/

/-- A source from a live block is found under its new number. -/
theorem find?_relabel {sources : List (BlockId × Operand)} (hknown : ∀ s ∈ sources, s.1 < f.blocks.length)
    (ha : a ∈ f.kept) :
    (((sources.filter fun s => !f.unreachableBlocks.contains s.1).map fun s => (f.label s.1, s.2)).find?
      (·.1 == f.label a)).map Prod.snd = (sources.find? (·.1 == a)).map Prod.snd := by
  induction sources with
  | nil => rfl
  | cons s rest ih =>
    rw [List.forall_mem_cons] at hknown
    have hkept : (!f.unreachableBlocks.contains s.1) = true ↔ s.1 ∈ f.kept := by
      simp [kept, blockIds, hknown.1]
    by_cases hs : s.1 ∈ f.kept
    · rw [List.filter_cons, if_pos (hkept.mpr hs), List.map_cons, List.find?_cons, List.find?_cons]
      by_cases e : s.1 = a
      · simp [e]
      · have hne : f.label s.1 ≠ f.label a := fun h => e (label_inj hs ha h)
        simpa [beq_eq_false_iff_ne.mpr e, beq_eq_false_iff_ne.mpr hne] using ih hknown.2
    · have hne : s.1 ≠ a := fun e => hs (e ▸ ha)
      rw [List.filter_cons, if_neg fun h => hs (hkept.mp h), ih hknown.2, List.find?_cons,
        beq_eq_false_iff_ne.mpr hne]

theorem Valid.mirrors_compact (h : f.Valid) :
    Mirrors f f.compact f.label (fun i => (i.keepSources (!f.unreachableBlocks.contains ·)).mapSourceBlocks f.label)
      (fun _ => true) fun _ => True where
  entry := entry_compact
  params := params_compact
  block b hb blk hblk := by
    have hkept := mem_kept_of_live (fun b => h.live_lt) hb
    refine ⟨_, by rw [block?_compact hkept, hblk]; rfl, ?_, ?_, rfl⟩
    · rw [List.filter_true]
      exact Block.phis_mapInstrs blk fun i => by simp
    · have hid : ∀ i ∈ blk.body, (i.keepSources (!f.unreachableBlocks.contains ·)).mapSourceBlocks f.label = i := by
        intro i hi
        have hphi := h.phisFirst b i (by simpa [bodyAt, hblk])
        rw [Instr.keepSources_of_not_phi _ _ hphi, Instr.mapSourceBlocks_of_not_phi _ _ hphi]
      calc (relabel f.kept f.unreachableBlocks blk).body
          = blk.body.map fun i => (i.keepSources (!f.unreachableBlocks.contains ·)).mapSourceBlocks f.label :=
            Block.body_mapInstrs blk fun i => by simp
        _ = blk.body := by rw [List.map_congr_left hid, List.map_id']
        _ = blk.body.filter fun _ => true := by rw [List.filter_true]
  kept _ _ _ _ _ _ _ := trivial
  dropped _ _ _ _ hk := by cases hk
  term _ _ _ _ _ _ := trivial
  source a b ha hab i hi d sources hop := by
    have hs : i.sources? = some sources := by rw [Instr.sources?, hop]; rfl
    refine ⟨_, by simp only [Instr.mapSourceBlocks, Instr.keepSources, hop]; rfl, ?_⟩
    exact find?_relabel (h.source_lt (ha.step hab) (mem_instrsOf_of_phi hi) hs) (mem_kept_of_live (fun b => h.live_lt) ha)

/-! ## The sweep -/

theorem Valid.sweep_follows (h : f.Valid) : f.sweep.Follows f := by
  refine (pruneAll_induction (P := fun g => g.LiveValid (fun _ => False) ∧ g.Follows f) ?_ f.compact
    ⟨h.liveValid.compact, h.mirrors_compact.follows⟩).2
  rintro g ⟨hg, hfollows⟩
  exact ⟨hg.prune, hfollows.trans hg.mirrors_prune.follows⟩

end Func

/-- **Dead code elimination keeps runs that end well.** A valid function that returns on some arguments within a budget
returns the same data after the pass, over the same number of blocks and in no more steps. -/
theorem Pass.run_deadCode (f : Func) (hf : f.isValid = true) (args : List Word) (limit : Nat) (r : RunResult)
    (hr : f.run args limit = .ok r) :
    ∃ c r', (Pass.deadCode.run f).result? = some c ∧ c.func.run args limit = .ok r' ∧ r'.values = r.values ∧
      r'.visited = r.visited ∧ r'.steps ≤ r.steps := by
  obtain ⟨r', hr', hm⟩ := (Func.isValid_iff.mp hf).sweep_follows args limit r hr
  refine ⟨f.sweepTraced.value, r', rfl, ?_, hm.values, hm.visited, hm.steps⟩
  rw [← hr']
  exact congrArg (fun g : Func => g.run args limit) f.value_sweepTraced

/-- Counts up to its parameter, with a block that control never gets to and two instructions of which one keeps the other
from being dead at first. -/
def clutteredCount : Func where
  name := "clutteredCount"
  params := [0]
  blocks := [
    { term := .jump 2 },
    { term := .jump 2 },
    { instrs := [{ op := .phi 1 [(0, .lit (.int 0)), (1, .lit (.int 7)), (2, .var 2)] },
        { op := .binary .add 2 (.var 1) (.lit (.int 1)) }, { op := .binary .mul 4 (.var 2) (.var 2) },
        { op := .unary .neg 5 (.var 4) }, { op := .binary .lt 3 (.var 2) (.var 0) }],
      term := .branch (.var 3) 2 3 },
    { term := .ret [.var 2] }]

theorem clutteredCount_run_deadCode :
    clutteredCount.isValid = true ∧ clutteredCount.run [3] 30 = .ok ⟨[.int 3], 20, 5⟩ ∧
      ∃ c r', (Pass.deadCode.run clutteredCount).result? = some c ∧ c.func.run [3] 30 = .ok r' ∧ r'.values = [.int 3] ∧
        r'.visited = 5 ∧ r'.steps ≤ 20 :=
  ⟨by decide, rfl, Pass.run_deadCode clutteredCount (by decide) [3] 30 ⟨[.int 3], 20, 5⟩ rfl⟩

end SsaFusion
