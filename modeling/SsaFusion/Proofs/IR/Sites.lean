import Mathlib.Data.List.Nodup
import SsaFusion.Proofs.IR.Instr

/-!
# Definition sites

Where a value is defined once, the first instruction that defines it is the only one, and a position found by search is
the position of the definition (`site?_eq_instr_iff`). `destsAt` lists what the instructions of one block define, which
is all that arguments about availability use of positions.
-/

namespace SsaFusion

theorem Operand.eq_var_of_var? {o : Operand} {v : ValueId} (h : o.var? = some v) : o = .var v := by
  cases o with
  | lit => cases h
  | var w => exact congrArg Operand.var (Option.some.inj h)

/-- Two positions of a list whose images under a partial map have no repetition hold different images. -/
theorem getElem?_filterMap_inj {α β : Type} {g : α → Option β} {l : List α} (hn : (l.filterMap g).Nodup)
    {i j : Nat} {x y : α} {v : β} (hi : l[i]? = some x) (hj : l[j]? = some y) (hx : g x = some v)
    (hy : g y = some v) : i = j := by
  obtain ⟨hil, rfl⟩ := List.getElem?_eq_some_iff.mp hi
  obtain ⟨hjl, rfl⟩ := List.getElem?_eq_some_iff.mp hj
  have hp := List.pairwise_iff_getElem.mp (List.pairwise_filterMap.mp hn)
  rcases Nat.lt_trichotomy i j with h | h | h
  · exact absurd rfl (hp i j hil hjl h v hx v hy)
  · exact h
  · exact absurd rfl (hp j i hjl hil h v hy v hx)

namespace Func

variable {f : Func} {b c : BlockId} {v : ValueId} {n m : Nat}

/-- The values that the instructions of a block define, in order. -/
def destsAt (f : Func) (b : BlockId) : List ValueId := (f.instrsOf b).filterMap Instr.dest?

theorem instrsOf_eq {blk : Block} (h : f.block? b = some blk) : f.instrsOf b = blk.instrs := by
  simp [instrsOf, h]

theorem term?_eq (f : Func) {b : BlockId} {blk : Block} (h : f.block? b = some blk) : f.term? b = some blk.term := by
  simp [term?, h]

theorem phisAt_append_bodyAt (f : Func) {b : BlockId} : f.phisAt b ++ f.bodyAt b = f.instrsOf b := by
  cases h : f.block? b with
  | none => simp [phisAt, bodyAt, instrsOf, h]
  | some blk => simpa [phisAt, bodyAt, instrsOf, h] using blk.phis_append_body

theorem drop_phisAt (f : Func) (b : BlockId) : (f.instrsOf b).drop (f.phisAt b).length = f.bodyAt b := by
  rw [← f.phisAt_append_bodyAt, List.drop_left]

theorem mem_instrsOf_of_phi {f : Func} {b : BlockId} {i : Instr} (h : i ∈ f.phisAt b) : i ∈ f.instrsOf b := by
  rw [← phisAt_append_bodyAt]
  exact List.mem_append_left _ h

theorem mem_instrsOf_of_body {f : Func} {b : BlockId} {i : Instr} (h : i ∈ f.bodyAt b) : i ∈ f.instrsOf b := by
  rw [← phisAt_append_bodyAt]
  exact List.mem_append_right _ h

theorem isPhi_of_mem_phisAt (f : Func) {b : BlockId} {i : Instr} (h : i ∈ f.phisAt b) : i.isPhi = true := by
  cases hb : f.block? b with
  | none => simp [phisAt, hb] at h
  | some blk => exact Block.isPhi_of_mem_phis (by simpa [phisAt, hb] using h)

theorem isPhi_of_lt_phis {i : Instr} (hi : f.instrAt? b n = some i) (hn : n < (f.phisAt b).length) : i.isPhi = true := by
  rw [instrAt?, ← phisAt_append_bodyAt, List.getElem?_append_left hn] at hi
  exact f.isPhi_of_mem_phisAt (List.mem_of_getElem? hi)

theorem mem_destsAt : v ∈ f.destsAt b ↔ ∃ i ∈ f.instrsOf b, i.dest? = some v := by
  simp [destsAt, List.mem_filterMap]

theorem mem_destsAt_iff_index : v ∈ f.destsAt b ↔ ∃ n i, f.instrAt? b n = some i ∧ i.dest? = some v := by
  rw [mem_destsAt]
  constructor
  · rintro ⟨i, hi, hd⟩
    obtain ⟨n, hn⟩ := List.getElem?_of_mem hi
    exact ⟨n, i, hn, hd⟩
  · rintro ⟨n, i, hn, hd⟩
    exact ⟨i, List.mem_of_getElem? hn, hd⟩

theorem dests_eq_flatMap : f.dests = f.blocks.flatMap fun blk => blk.instrs.filterMap Instr.dest? := by
  simp [dests, instrs, List.filterMap_flatMap]

theorem instrs_eq_range : f.instrs = (List.range f.blocks.length).flatMap f.instrsOf := by
  have hmap : (List.range f.blocks.length).map f.instrsOf = f.blocks.map Block.instrs := by
    refine List.ext_getElem (by simp) fun n h₁ h₂ => ?_
    have hn : n < f.blocks.length := by simpa using h₂
    have hblk : f.block? n = some f.blocks[n] := List.getElem?_eq_getElem hn
    simp [instrsOf_eq hblk]
  rw [instrs, List.flatMap_def, List.flatMap_def, hmap]

theorem dests_eq_range : f.dests = (List.range f.blocks.length).flatMap f.destsAt := by
  rw [dests, instrs_eq_range, List.filterMap_flatMap]
  rfl

theorem mem_dests : v ∈ f.dests ↔ ∃ b, v ∈ f.destsAt b := by
  rw [dests_eq_flatMap, List.mem_flatMap]
  constructor
  · rintro ⟨blk, hb, hv⟩
    obtain ⟨b, hb⟩ := List.getElem?_of_mem hb
    exact ⟨b, by rw [destsAt, instrsOf_eq hb]; exact hv⟩
  · rintro ⟨b, hv⟩
    cases hb : f.block? b with
    | none => simp [destsAt, instrsOf, hb] at hv
    | some blk => exact ⟨blk, List.mem_of_getElem? hb, by rwa [destsAt, instrsOf_eq hb] at hv⟩

/-! ## Values defined once -/

section Once

variable (hn : f.defined.Nodup)

include hn

theorem nodup_dests : f.dests.Nodup := (List.nodup_append.mp hn).2.1

theorem nodup_destsAt (b : BlockId) : (f.destsAt b).Nodup := by
  have h := nodup_dests hn
  rw [dests_eq_flatMap, List.nodup_flatMap] at h
  cases hb : f.block? b with
  | none => simp [destsAt, instrsOf, hb]
  | some blk => rw [destsAt, instrsOf_eq hb]; exact h.1 blk (List.mem_of_getElem? hb)

theorem nodup_phiDests (b : BlockId) : ((f.phisAt b).filterMap Instr.dest?).Nodup := by
  have h := nodup_destsAt hn b
  rw [destsAt, ← phisAt_append_bodyAt, List.filterMap_append] at h
  exact (List.nodup_append.mp h).1

theorem not_mem_params (h : v ∈ f.destsAt b) : v ∉ f.params :=
  fun hp => (List.nodup_append.mp hn).2.2 v hp v (mem_dests.mpr ⟨b, h⟩) rfl

/-- A value is defined in one block only. -/
theorem destsAt_unique (h : v ∈ f.destsAt b) (h' : v ∈ f.destsAt c) : b = c := by
  have hd := nodup_dests hn
  rw [dests_eq_flatMap, List.nodup_flatMap] at hd
  have hp := List.pairwise_iff_getElem.mp hd.2
  cases hb : f.block? b with
  | none => simp [destsAt, instrsOf, hb] at h
  | some blk =>
    cases hc : f.block? c with
    | none => simp [destsAt, instrsOf, hc] at h'
    | some blk' =>
      rw [destsAt, instrsOf_eq hb] at h
      rw [destsAt, instrsOf_eq hc] at h'
      obtain ⟨hbl, rfl⟩ := List.getElem?_eq_some_iff.mp hb
      obtain ⟨hcl, rfl⟩ := List.getElem?_eq_some_iff.mp hc
      rcases Nat.lt_trichotomy b c with hlt | heq | hlt
      · exact absurd h' (hp b c hbl hcl hlt h)
      · exact heq
      · exact absurd h (hp c b hcl hbl hlt h')

/-- A block has one position that defines a value. -/
theorem instrAt?_unique {i j : Instr} (h : f.instrAt? b n = some i) (h' : f.instrAt? b m = some j)
    (hi : i.dest? = some v) (hj : j.dest? = some v) : n = m :=
  getElem?_filterMap_inj (nodup_destsAt hn b) h h' hi hj

end Once

/-! ## Sites found by search -/

theorem site?_eq_param_iff : f.site? v = some .param ↔ v ∈ f.params := by
  unfold site?
  split
  · simpa using ‹f.params.contains v = true›
  · rename_i h
    refine iff_of_false ?_ (by simpa using h)
    intro h'
    obtain ⟨p, _, hp⟩ := List.exists_of_findSome?_eq_some h'
    simp at hp

/-- What the search for the first definition finds. -/
theorem instrSite?_eq_some {s : Site} (h : f.instrSite? v = some s) :
    ∃ b n i, s = .instr b n ∧ f.instrAt? b n = some i ∧ i.dest? = some v := by
  obtain ⟨⟨blk, b⟩, hm, hs⟩ := List.exists_of_findSome?_eq_some h
  obtain ⟨n, hn, rfl⟩ := Option.map_eq_some_iff.mp hs
  have hb : f.block? b = some blk := List.mk_mem_zipIdx_iff_getElem?.mp hm
  obtain ⟨hlt, hd, _⟩ := List.findIdx?_eq_some_iff_getElem.mp hn
  refine ⟨b, n, blk.instrs[n], rfl, ?_, by simpa using hd⟩
  rw [instrAt?, instrsOf_eq hb]
  exact List.getElem?_eq_getElem hlt

theorem instrSite?_isSome {i : Instr} (h : f.instrAt? b n = some i) (hi : i.dest? = some v) :
    (f.instrSite? v).isSome := by
  cases hb : f.block? b with
  | none => simp [instrAt?, instrsOf, hb] at h
  | some blk =>
    rw [instrAt?, instrsOf_eq hb] at h
    refine List.findSome?_isSome_iff.mpr ⟨(blk, b), List.mk_mem_zipIdx_iff_getElem?.mpr hb, ?_⟩
    simpa using ⟨i, List.mem_of_getElem? h, hi⟩

theorem site?_eq_none_iff : f.site? v = none ↔ v ∉ f.params ∧ v ∉ f.dests := by
  have hnone : f.instrSite? v = none ↔ v ∉ f.dests := by
    constructor
    · intro h hv
      obtain ⟨b, hb⟩ := mem_dests.mp hv
      obtain ⟨n, i, hi, hd⟩ := mem_destsAt_iff_index.mp hb
      simpa [h] using instrSite?_isSome hi hd
    · intro hv
      by_contra hne
      obtain ⟨s, hs⟩ := Option.ne_none_iff_exists'.mp hne
      obtain ⟨b, n, i, _, hi, hd⟩ := instrSite?_eq_some hs
      exact hv (mem_dests.mpr ⟨b, mem_destsAt_iff_index.mpr ⟨n, i, hi, hd⟩⟩)
  unfold site?
  split
  · rename_i h
    exact iff_of_false (by simp) fun h' => h'.1 (by simpa using h)
  · rename_i h
    rw [hnone]
    exact ⟨fun h' => ⟨by simpa using h, h'⟩, And.right⟩

theorem exists_instr_of_site? (h : f.site? v = some (.instr b n)) :
    ∃ i, f.instrAt? b n = some i ∧ i.dest? = some v := by
  unfold site? at h
  split at h
  · cases h
  · obtain ⟨b', n', i, hs, hi, hd⟩ := instrSite?_eq_some h
    cases hs
    exact ⟨i, hi, hd⟩

theorem instrAt?_of_definition? {i : Instr} (h : f.definition? v = some (b, n, i)) :
    f.instrAt? b n = some i ∧ i.dest? = some v := by
  unfold definition? at h
  split at h
  · rename_i b' n' hsite
    obtain ⟨i', hi, hd⟩ := exists_instr_of_site? hsite
    rw [hi] at h
    cases h
    exact ⟨hi, hd⟩
  · cases h

/-- The site of a value defined once is the position of the instruction that defines it. -/
theorem site?_eq_instr_iff (hn : f.defined.Nodup) :
    f.site? v = some (.instr b n) ↔ ∃ i, f.instrAt? b n = some i ∧ i.dest? = some v := by
  constructor
  · exact exists_instr_of_site?
  · rintro ⟨i, hi, hd⟩
    have hv : v ∈ f.destsAt b := mem_destsAt_iff_index.mpr ⟨n, i, hi, hd⟩
    have hp : f.params.contains v = false := by simpa using not_mem_params hn hv
    obtain ⟨s, hs⟩ := Option.isSome_iff_exists.mp (instrSite?_isSome hi hd)
    obtain ⟨b', n', i', rfl, hi', hd'⟩ := instrSite?_eq_some hs
    have hb : b' = b := destsAt_unique hn (mem_destsAt_iff_index.mpr ⟨n', i', hi', hd'⟩) hv
    subst hb
    have hnn : n' = n := instrAt?_unique hn hi' hi hd' hd
    subst hnn
    rw [site?, hp, hs]
    rfl

/-- The instruction that defines a value once. -/
theorem definition?_eq_some (hn : f.defined.Nodup) {i : Instr} (hi : f.instrAt? b n = some i) (hd : i.dest? = some v) :
    f.definition? v = some (b, n, i) := by
  simp only [definition?, (site?_eq_instr_iff hn).mpr ⟨i, hi, hd⟩, hi, Option.map_some]

/-- The block in which a value is defined once. -/
theorem definingBlock?_eq_some_iff (hn : f.defined.Nodup) : f.definingBlock? v = some b ↔ v ∈ f.destsAt b := by
  unfold definingBlock?
  constructor
  · intro h
    obtain ⟨s, hs, hb⟩ := Option.bind_eq_some_iff.mp h
    cases s with
    | param => cases hb
    | instr b' n =>
      cases hb
      obtain ⟨i, hi, hd⟩ := (site?_eq_instr_iff hn).mp hs
      exact mem_destsAt_iff_index.mpr ⟨n, i, hi, hd⟩
  · intro h
    obtain ⟨n, i, hi, hd⟩ := mem_destsAt_iff_index.mp h
    rw [(site?_eq_instr_iff hn).mpr ⟨i, hi, hd⟩]
    rfl

end Func

end SsaFusion
