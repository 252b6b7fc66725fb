import SsaFusion.Proofs.Validity
import SsaFusion.Sweep

/-!
# Removing unreachable blocks

Compaction keeps the live blocks and numbers them anew. `label` is the new number of a block; it carries the edges, the
live places and the dominance of a function over to the compacted one (`successors_compact`, `live_compact`,
`dominates_compact`), so everything that is available stays available (`availableIn_compact`).
-/

namespace SsaFusion

theorem getElem?_filterMap_of_isSome {α β : Type} {g : α → Option β} {l : List α} (h : ∀ a ∈ l, (g a).isSome)
    (n : Nat) : (l.filterMap g)[n]? = l[n]?.bind g := by
  induction l generalizing n with
  | nil => rfl
  | cons a rest ih =>
    rw [List.forall_mem_cons] at h
    obtain ⟨b, hb⟩ := Option.isSome_iff_exists.mp h.1
    rw [List.filterMap_cons_some hb]
    cases n with
    | zero => simp [hb]
    | succ n => simpa using ih h.2 n

theorem Terminator.targets_mapTargets {ρ : BlockId → BlockId} {t : Terminator}
    (hinj : ∀ b ∈ t.targets, ∀ c ∈ t.targets, ρ b = ρ c → b = c) :
    (t.mapTargets ρ).targets = t.targets.map ρ := by
  cases t with
  | branch c x y =>
    by_cases e : x = y
    · simp [mapTargets, targets, e]
    · have : ρ x ≠ ρ y := fun h => e (hinj x (by simp [targets, e]) y (by simp [targets, e]) h)
      simp [mapTargets, targets, e, this]
  | _ => rfl

@[simp] theorem Terminator.operands_mapTargets (ρ : BlockId → BlockId) (t : Terminator) :
    (t.mapTargets ρ).operands = t.operands := by
  cases t <;> rfl

namespace Func

variable {f : Func} {a b c : BlockId} {v : ValueId}

/-! ## Labels -/

/-- The blocks that compaction keeps, ascending. -/
def kept (f : Func) : List BlockId := f.blockIds.filter (!f.unreachableBlocks.contains ·)

/-- The number of a block after compaction. -/
def label (f : Func) (b : BlockId) : BlockId := renumber f.kept b

theorem mem_kept : b ∈ f.kept ↔ b < f.blocks.length ∧ f.Live b := by
  simp only [kept, blockIds, List.mem_filter, List.mem_range, Bool.not_eq_true', ← Bool.not_eq_true,
    List.contains_iff_mem, mem_unreachableBlocks, not_and, not_not]
  exact ⟨fun h => ⟨h.1, h.2 h.1⟩, fun h => ⟨h.1, fun _ => h.2⟩⟩

theorem nodup_kept : f.kept.Nodup := List.Nodup.filter _ List.nodup_range

theorem getElem?_label (hb : b ∈ f.kept) : f.kept[f.label b]? = some b := by
  obtain ⟨n, hn⟩ : ∃ n, f.kept.idxOf? b = some n := Option.isSome_iff_exists.mp (by simpa using hb)
  obtain ⟨hlt, hbeq, _⟩ := List.findIdx?_eq_some_iff_getElem.mp hn
  rw [label, renumber, hn, Option.getD_some, List.getElem?_eq_getElem hlt]
  exact congrArg some (by simpa using hbeq)

theorem label_inj (ha : a ∈ f.kept) (hb : b ∈ f.kept) (e : f.label a = f.label b) : a = b := by
  have := getElem?_label ha
  rw [e, getElem?_label hb] at this
  exact (Option.some.inj this).symm

theorem exists_label {n : Nat} (hn : n < f.kept.length) : ∃ b ∈ f.kept, f.label b = n := by
  refine ⟨f.kept[n], List.getElem_mem hn, ?_⟩
  have := getElem?_label (List.getElem_mem hn)
  obtain ⟨hlt, he⟩ := List.getElem?_eq_some_iff.mp this
  exact (nodup_kept.getElem_inj_iff).mp he

/-! ## The compacted function -/

theorem renumber_range (n b : Nat) : renumber (List.range n) b = b := by
  unfold renumber
  cases h : (List.range n).idxOf? b with
  | none => rfl
  | some k =>
    obtain ⟨hlt, hb, _⟩ := List.findIdx?_eq_some_iff_getElem.mp h
    simpa using hb

/-- Numbering blocks as they are numbered changes nothing. -/
theorem relabel_range (n : Nat) (blk : Block) : relabel (List.range n) [] blk = blk := by
  have hinstr : ∀ i : Instr, (i.keepSources fun x => ! [].contains x).mapSourceBlocks (renumber (List.range n)) = i := by
    intro i
    unfold Instr.mapSourceBlocks Instr.keepSources
    rw [Op.mapSources_id, Op.mapSources_id]
    · intro ss _
      simp
    · intro ss _
      simp [renumber_range]
  have hterm : blk.term.mapTargets (renumber (List.range n)) = blk.term := by
    cases blk.term <;> simp [Terminator.mapTargets, renumber_range]
  unfold relabel Block.mapTerm Block.mapInstrs
  simp only [hinstr, hterm, List.map_id']

theorem compact_eq (f : Func) : f.compact =
    { f with
      blocks := (f.kept.filterMap f.block?).map (relabel f.kept f.unreachableBlocks)
      entry := f.label f.entry } := by
  unfold compact
  simp only
  split
  · rename_i h
    have hdead : f.unreachableBlocks = [] := List.isEmpty_iff.mp h
    have hkept : f.kept = List.range f.blocks.length := by simp [kept, hdead, blockIds]
    have hblocks : (List.range f.blocks.length).filterMap f.block? = f.blocks := by
      refine List.ext_getElem? fun n => ?_
      rw [getElem?_filterMap_of_isSome (fun b hb => by simpa [block?] using hb)]
      by_cases hn : n < f.blocks.length <;> simp [hn, block?]
    have hmap : f.blocks.map (relabel (List.range f.blocks.length) []) = f.blocks := by
      rw [List.map_congr_left fun blk _ => relabel_range _ blk, List.map_id']
    rw [hdead, hkept, hblocks, hmap, label, hkept, renumber_range]
  · rfl

@[simp] theorem entry_compact : f.compact.entry = f.label f.entry := by rw [compact_eq]

@[simp] theorem params_compact : f.compact.params = f.params := by rw [compact_eq]

theorem length_compact : f.compact.blocks.length = f.kept.length := by
  have hsome : ∀ b ∈ f.kept, (f.block? b).isSome := fun b hb => by simpa [block?] using (mem_kept.mp hb).1
  rw [compact_eq]
  simp only [List.length_map]
  exact List.filterMap_length_eq_length.mpr hsome

theorem block?_compact (hb : b ∈ f.kept) :
    f.compact.block? (f.label b) = (f.block? b).map (relabel f.kept f.unreachableBlocks) := by
  have hsome : ∀ b ∈ f.kept, (f.block? b).isSome := fun b hb => by simpa [block?] using (mem_kept.mp hb).1
  rw [compact_eq]
  unfold block?
  rw [List.getElem?_map]
  have := getElem?_filterMap_of_isSome hsome (f.label b)
  rw [getElem?_label hb, Option.bind_some] at this
  exact congrArg _ this

theorem instrsOf_compact (hb : b ∈ f.kept) :
    f.compact.instrsOf (f.label b) = (f.instrsOf b).map fun i =>
      (i.keepSources (!f.unreachableBlocks.contains ·)).mapSourceBlocks f.label := by
  unfold instrsOf
  rw [block?_compact hb]
  cases f.block? b <;> rfl

/-- What is the same for a block and its copy is listed alike. -/
theorem map_range_compact {α : Type} {g h : BlockId → α} (hgh : ∀ b ∈ f.kept, g (f.label b) = h b) :
    (List.range f.compact.blocks.length).map g = f.kept.map h := by
  refine List.ext_getElem (by simp [length_compact]) fun n h₁ h₂ => ?_
  have hn : n < f.kept.length := by simpa using h₂
  obtain ⟨b, hb, rfl⟩ := exists_label hn
  obtain ⟨_, he⟩ := List.getElem?_eq_some_iff.mp (getElem?_label hb)
  simp [hgh b hb, he]

theorem destsAt_compact (hb : b ∈ f.kept) : f.compact.destsAt (f.label b) = f.destsAt b := by
  rw [destsAt, destsAt, instrsOf_compact hb, List.filterMap_map]
  exact List.filterMap_congr fun i _ => by simp

theorem term?_compact (hb : b ∈ f.kept) : f.compact.term? (f.label b) = (f.term? b).map (Terminator.mapTargets f.label) := by
  unfold term?
  rw [block?_compact hb]
  cases f.block? b <;> rfl

/-! ## Edges and dominance -/

/-- Live blocks stay live. A block with a successor exists, so the number that its copy has for the successor is the new
one, even if there is no such block. -/
theorem live_label (hb : f.Live b) : f.compact.Live (f.label b) := by
  rw [live_iff_reaches] at hb
  induction hb with
  | refl => exact entry_compact ▸ live_entry
  | @tail a b ha hs _ ih =>
    obtain ⟨blk, hblk, ht⟩ := mem_successors.mp hs
    have hkept : a ∈ f.kept := mem_kept.mpr ⟨(List.getElem?_eq_some_iff.mp hblk).1, live_iff_reaches.mpr ha⟩
    refine ih.step (mem_successors.mpr ⟨_, by rw [block?_compact hkept, hblk]; rfl, ?_⟩)
    exact Terminator.mem_targets_mapTargets.mpr ⟨b, ht, rfl⟩

/-- Compaction leaves no dead block. -/
theorem live_compact_of_lt {n : BlockId} (hn : n < f.compact.blocks.length) : f.compact.Live n := by
  rw [length_compact] at hn
  obtain ⟨b, hb, rfl⟩ := exists_label hn
  exact live_label (mem_kept.mp hb).2

section InRange

variable (hr : ∀ b, f.Live b → b < f.blocks.length)

include hr

theorem mem_kept_of_live (hb : f.Live b) : b ∈ f.kept := mem_kept.mpr ⟨hr b hb, hb⟩

theorem successors_compact (hb : f.Live b) : f.compact.successors (f.label b) = (f.successors b).map f.label := by
  have hkept := mem_kept_of_live hr hb
  unfold successors
  rw [term?_compact hkept]
  cases ht : f.term? b with
  | none => rfl
  | some t =>
    have hsucc : ∀ c ∈ t.targets, c ∈ f.kept :=
      fun c hc => mem_kept_of_live hr (hb.step (by simpa [successors, ht] using hc))
    exact Terminator.targets_mapTargets fun x hx y hy e => label_inj (hsucc x hx) (hsucc y hy) e

theorem mem_successors_compact (ha : f.Live a) (hb : f.Live b) :
    f.label b ∈ f.compact.successors (f.label a) ↔ b ∈ f.successors a := by
  rw [successors_compact hr ha, List.mem_map]
  constructor
  · rintro ⟨c, hc, e⟩
    rwa [← label_inj (mem_kept_of_live hr (ha.step hc)) (mem_kept_of_live hr hb) e]
  · exact fun h => ⟨b, h, rfl⟩

/-- A walk of the compacted function is a walk of the function. -/
theorem exists_of_reaches_compact {ok : BlockId → Prop} {n : BlockId}
    (h : Reaches f.compact.successors ok f.compact.entry n) :
    ∃ b, f.label b = n ∧ Reaches f.successors (fun x => ok (f.label x)) f.entry b := by
  induction h with
  | refl h => exact ⟨f.entry, entry_compact.symm, .refl (by rwa [entry_compact] at h)⟩
  | @tail m n _ hs hc ih =>
    obtain ⟨b, rfl, hb⟩ := ih
    have hlive : f.Live b := live_iff_reaches.mpr (hb.mono fun _ _ => trivial)
    rw [successors_compact hr hlive] at hs
    obtain ⟨c, hcs, rfl⟩ := List.mem_map.mp hs
    exact ⟨c, rfl, .tail hb hcs hc⟩

theorem reaches_compact {ok : BlockId → Prop} (h : Reaches f.successors (fun x => ok (f.label x)) f.entry b) :
    Reaches f.compact.successors ok f.compact.entry (f.label b) := by
  induction h with
  | refl h => rw [entry_compact]; exact .refl h
  | tail h hs hc ih =>
    have hlive : f.Live _ := live_iff_reaches.mpr (h.mono fun _ _ => trivial)
    refine .tail ih ?_ hc
    rw [successors_compact hr hlive]
    exact List.mem_map.mpr ⟨_, hs, rfl⟩

theorem live_compact {n : BlockId} : f.compact.Live n ↔ ∃ b, f.Live b ∧ f.label b = n := by
  constructor
  · intro h
    obtain ⟨b, hb, hr⟩ := exists_of_reaches_compact hr (live_iff_reaches.mp h)
    exact ⟨b, live_iff_reaches.mpr hr, hb⟩
  · rintro ⟨b, hb, rfl⟩
    exact live_iff_reaches.mpr (reaches_compact hr (live_iff_reaches.mp hb))

theorem dominates_compact (ha : f.Live a) (hb : f.Live b) :
    f.compact.Dominates (f.label a) (f.label b) ↔ f.Dominates a b := by
  rw [dominates_iff_doms, dominates_iff_doms, Doms, Doms, not_iff_not]
  have hne : ∀ x, Reaches f.successors (fun _ => True) f.entry x → (f.label x ≠ f.label a ↔ x ≠ a) := by
    intro x hx
    have hkx := mem_kept_of_live hr (live_iff_reaches.mpr hx)
    exact not_congr ⟨label_inj hkx (mem_kept_of_live hr ha), fun e => e ▸ rfl⟩
  constructor
  · intro h
    obtain ⟨c, hc, hreach⟩ := exists_of_reaches_compact hr h
    have hlc : f.Live c := live_iff_reaches.mpr (hreach.mono fun _ _ => trivial)
    rw [← label_inj (mem_kept_of_live hr hlc) (mem_kept_of_live hr hb) hc]
    exact hreach.strengthen fun x hx => (hne x (hx.mono fun _ _ => trivial)).mp hx.ok_end
  · intro h
    refine reaches_compact hr (h.strengthen fun x hx => ?_)
    exact (hne x (hx.mono fun _ _ => trivial)).mpr hx.ok_end

theorem strictlyDominates_compact (ha : f.Live a) (hb : f.Live b) :
    f.compact.StrictlyDominates (f.label a) (f.label b) ↔ f.StrictlyDominates a b := by
  refine and_congr (not_congr ?_) (dominates_compact hr ha hb)
  exact ⟨label_inj (mem_kept_of_live hr ha) (mem_kept_of_live hr hb), fun e => e ▸ rfl⟩

theorem availableIn_compact (hb : f.Live b) : f.compact.AvailableIn (f.label b) v ↔ f.AvailableIn b v := by
  unfold AvailableIn
  rw [params_compact]
  refine or_congr_right ⟨?_, ?_⟩
  · rintro ⟨n, hdom, hv⟩
    obtain ⟨d, hd, rfl⟩ := (live_compact hr).mp (hdom.2.live ((live_compact hr).mpr ⟨b, hb, rfl⟩))
    rw [destsAt_compact (mem_kept_of_live hr hd)] at hv
    exact ⟨d, (strictlyDominates_compact hr hd hb).mp hdom, hv⟩
  · rintro ⟨d, hdom, hv⟩
    have hd := hdom.2.live hb
    refine ⟨f.label d, (strictlyDominates_compact hr hd hb).mpr hdom, ?_⟩
    rwa [destsAt_compact (mem_kept_of_live hr hd)]

theorem availableOut_compact (hb : f.Live b) : f.compact.AvailableOut (f.label b) v ↔ f.AvailableOut b v := by
  rw [availableOut_iff, availableOut_iff, availableIn_compact hr hb, destsAt_compact (mem_kept_of_live hr hb)]

end InRange

end Func

end SsaFusion
