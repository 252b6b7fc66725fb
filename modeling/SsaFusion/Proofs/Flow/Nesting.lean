import SsaFusion.Fusion.Rounds
import SsaFusion.Proofs.Flow.Nest

/-!
# The loop nest is a forest

Two loops are disjoint or one lies inside the other (`laminar`), and outer loops are listed before inner ones
(`loops_order`), as their headers are dominators. So the chain of parents from a loop on runs through all loops around its
header, one by one (`enclosing_of_parent`). Its length is the depth of the loop, which one pass over the loops finds since
parents come first (`depth_eq`), and it bounds the walk down from a loop, which lists all loops inside it
(`postorder_listing`). Groups of siblings are sets of loops with one parent (`mem_siblingGroups`), so the pairs that fusion
tries are siblings (`siblings_of_candidate`).
-/

namespace SsaFusion

/-! ## Loops inside loops -/

namespace Loop

variable {l k m : Loop}

/-- A loop lies inside another if the other has all its blocks, and more. -/
def Inside (l k : Loop) : Prop := l.blocks ⊆ k.blocks ∧ ¬k.blocks ⊆ l.blocks

instance : Decidable (l.Inside k) := inferInstanceAs (Decidable (_ ∧ _))

namespace Inside

theorem irrefl : ¬l.Inside l := fun h => h.2 h.1

theorem trans (h : l.Inside k) (h' : k.Inside m) : l.Inside m :=
  ⟨fun _ hb => h'.1 (h.1 hb), fun hsub => h'.2 fun _ hb => h.1 (hsub hb)⟩

theorem asymm (h : l.Inside k) : ¬k.Inside l := fun h' => (h.trans h').irrefl

end Inside

end Loop

/-- The smallest loop of those with a property. -/
def LoopNest.Innermost (n : LoopNest) (s : Loop → Prop) (l : Loop) : Prop :=
  l ∈ n.loops ∧ s l ∧ ∀ k ∈ n.loops, s k → l = k ∨ l.Inside k

/-- The loops with a given parent. -/
def LoopNest.family (n : LoopNest) (parent : Option BlockId) : List Loop := n.loops.filter (·.parent == parent)

namespace Func

variable {f : Func} {l k m p c : Loop} {b h : BlockId}

/-- The loop nest of a function. -/
abbrev nest (f : Func) : LoopNest := f.loopNest f.dominators

theorem nodup_loops : f.loops.Nodup := .of_map _ nodup_headers

/-- A loop lies inside every other loop that has its header. -/
theorem inside_iff (hl : l ∈ f.loops) (hk : k ∈ f.loops) : l.Inside k ↔ l ≠ k ∧ l.header ∈ k.blocks := by
  have hlb := isLoop_of_mem hl
  have hkb := isLoop_of_mem hk
  constructor
  · rintro h
    exact ⟨fun e => Loop.Inside.irrefl (e ▸ h), h.1 hlb.header_mem⟩
  · rintro ⟨hne, hmem⟩
    have hne' : k.header ≠ l.header := fun e => hne (eq_of_header_eq hl hk e.symm)
    obtain ⟨hout, hsub⟩ := hkb.nested hlb hmem hlb.header_mem (hkb.dominates_of_mem hmem) hne'
    exact ⟨hsub, fun h => hout (h hkb.header_mem)⟩

/-- **Loops that share a block are nested.** -/
theorem laminar (hl : l ∈ f.loops) (hk : k ∈ f.loops) (hbl : b ∈ l.blocks) (hbk : b ∈ k.blocks) :
    l = k ∨ l.Inside k ∨ k.Inside l := by
  by_cases e : l = k
  · exact Or.inl e
  · have hlb := isLoop_of_mem hl
    have hkb := isLoop_of_mem hk
    have hne : l.header ≠ k.header := fun h => e (eq_of_header_eq hl hk h)
    refine Or.inr ?_
    rcases (hlb.dominates_of_mem hbl).total (hkb.dominates_of_mem hbk) (hlb.live_of_mem hbl) with hd | hd
    · exact Or.inr ((inside_iff hk hl).mpr ⟨Ne.symm e, (hlb.nested hkb hbl hbk hd hne).2 _ hkb.header_mem⟩)
    · exact Or.inl ((inside_iff hl hk).mpr ⟨e, (hkb.nested hlb hbk hbl hd hne.symm).2 _ hlb.header_mem⟩)

theorem length_lt_of_inside (hl : l ∈ f.loops) (hk : k ∈ f.loops) (h : l.Inside k) :
    l.blocks.length < k.blocks.length := by
  have hlb := isLoop_of_mem hl
  have hkb := isLoop_of_mem hk
  obtain ⟨hne, hmem⟩ := (inside_iff hl hk).mp h
  exact hkb.length_lt hlb hmem hlb.header_mem (hkb.dominates_of_mem hmem) fun e => hne (eq_of_header_eq hl hk e.symm)

/-- **Outer loops are listed first.** -/
theorem loops_order : f.loops.Pairwise fun a b => ¬a.Inside b := by
  refine (List.pairwise_map.mp (dominators_first.sublist (loops_sublist (f := f)))).imp_of_mem fun ha hb hnd h => ?_
  exact hnd ((isLoop_of_mem hb).dominates_of_mem ((inside_iff ha hb).mp h).2)

/-! ## Parents -/

theorem exists_of_parent (hl : l ∈ f.loops) (h : l.parent = some b) : ∃ p ∈ f.loops, p.header = b ∧ l.Inside p := by
  obtain ⟨p, hp, rfl⟩ : ∃ p ∈ f.loops, p.header = b := by
    obtain ⟨raw, _, rfl⟩ := mem_loops.mp hl
    obtain ⟨p, hsmall, rfl⟩ := Option.map_eq_some_iff.mp h
    exact ⟨_, mem_loops.mpr ⟨p, (List.mem_filter.mp (smallestLoop_eq_some hsmall).1).1, rfl⟩, rfl⟩
  obtain ⟨hne, hmem⟩ := mem_of_parent hl hp h
  exact ⟨p, hp, rfl, (inside_iff hl hp).mpr ⟨fun e => hne (e ▸ rfl), hmem⟩⟩

/-- A loop inside another has a parent, the smallest loop around it. -/
theorem parent_of_inside (hl : l ∈ f.loops) (hk : k ∈ f.loops) (hin : l.Inside k) :
    ∃ p, l.parent = some p.header ∧ f.nest.Innermost l.Inside p := by
  have hspec : ∀ k ∈ f.loops, l.Inside k →
      ∃ p ∈ f.loops, l.parent = some p.header ∧ p.blocks.length ≤ k.blocks.length := by
    intro k hk hin
    obtain ⟨hne, hmem⟩ := (inside_iff hl hk).mp hin
    exact parent_spec hl hk (fun e => hne (eq_of_header_eq hl hk e.symm)) hmem
  obtain ⟨p, hp, hpar, _⟩ := hspec k hk hin
  obtain ⟨p', hp', he, hlp⟩ := exists_of_parent hl hpar
  obtain rfl := eq_of_header_eq hp' hp he
  refine ⟨p', hpar, hp, hlp, fun k hk hin => ?_⟩
  obtain ⟨q, hq, hpar', hle⟩ := hspec k hk hin
  obtain rfl := eq_of_header_eq hq hp (Option.some.inj (hpar'.symm.trans hpar))
  have hhead := (isLoop_of_mem hl).header_mem
  rcases laminar hp hk (hlp.1 hhead) (hin.1 hhead) with h | h | h
  · exact Or.inl h
  · exact Or.inr h
  · have := length_lt_of_inside hk hp h
    omega

theorem parent_eq_none (hl : l ∈ f.loops) : l.parent = none ↔ ∀ k ∈ f.loops, ¬l.Inside k := by
  constructor
  · intro h k hk hin
    obtain ⟨p, hpar, _⟩ := parent_of_inside hl hk hin
    cases h.symm.trans hpar
  · intro h
    by_contra hne
    obtain ⟨b, hb⟩ := Option.ne_none_iff_exists'.mp hne
    obtain ⟨p, hp, _, hin⟩ := exists_of_parent hl hb
    exact h p hp hin

theorem parent_eq_some (hl : l ∈ f.loops) :
    l.parent = some h ↔ ∃ p, p.header = h ∧ f.nest.Innermost l.Inside p := by
  constructor
  · intro hpar
    obtain ⟨k, hk, _, hin⟩ := exists_of_parent hl hpar
    obtain ⟨p, hpar', hp⟩ := parent_of_inside hl hk hin
    exact ⟨p, Option.some.inj (hpar'.symm.trans hpar), hp⟩
  · rintro ⟨p, rfl, hp, hin, hleast⟩
    obtain ⟨q, hpar, hq, hinq, hleast'⟩ := parent_of_inside hl hp hin
    rw [hpar]
    rcases hleast q hq hinq with rfl | h
    · rfl
    · rcases hleast' p hp hin with rfl | h'
      · rfl
      · exact absurd h' h.asymm

/-! ## Depth -/

/-- The loops around the header of a loop, itself included. -/
def enclosing (f : Func) (l : Loop) : List Loop := f.loops.filter (·.contains l.header)

theorem mem_enclosing (hl : l ∈ f.loops) : k ∈ f.enclosing l ↔ k ∈ f.loops ∧ (k = l ∨ l.Inside k) := by
  have hc : k.contains l.header = true ↔ l.header ∈ k.blocks := by simp [Loop.contains]
  rw [enclosing, List.mem_filter, hc]
  refine and_congr_right fun hk => ⟨fun h => ?_, ?_⟩
  · by_cases e : k = l
    · exact Or.inl e
    · exact Or.inr ((inside_iff hl hk).mpr ⟨Ne.symm e, h⟩)
  · rintro (rfl | h)
    · exact (isLoop_of_mem hk).header_mem
    · exact h.1 (isLoop_of_mem hl).header_mem

theorem nodup_enclosing : (f.enclosing l).Nodup := nodup_loops.filter _

/-- The loops around a loop are the loop itself and those around its parent. -/
theorem enclosing_of_parent (hl : l ∈ f.loops) (hp : f.nest.Innermost l.Inside p) :
    (f.enclosing l).length = (f.enclosing p).length + 1 := by
  obtain ⟨hp, hin, hleast⟩ := hp
  have hout : l ∉ f.enclosing p := by
    rw [mem_enclosing hp]
    rintro ⟨_, rfl | h⟩
    · exact hin.irrefl
    · exact hin.asymm h
  have hperm : (f.enclosing l).Perm (l :: f.enclosing p) := by
    refine (List.perm_ext_iff_of_nodup nodup_enclosing (List.nodup_cons.mpr ⟨hout, nodup_enclosing⟩)).mpr fun k => ?_
    rw [mem_enclosing hl, List.mem_cons, mem_enclosing hp]
    constructor
    · rintro ⟨hk, rfl | h⟩
      · exact Or.inl rfl
      · exact Or.inr ⟨hk, (hleast k hk h).imp Eq.symm id⟩
    · rintro (rfl | ⟨hk, rfl | h⟩)
      · exact ⟨hl, Or.inl rfl⟩
      · exact ⟨hk, Or.inr hin⟩
      · exact ⟨hk, Or.inr (hin.trans h)⟩
  exact hperm.length_eq

theorem enclosing_of_root (hl : l ∈ f.loops) (hroot : l.parent = none) : (f.enclosing l).length = 1 := by
  have hperm : (f.enclosing l).Perm [l] := by
    refine (List.perm_ext_iff_of_nodup nodup_enclosing (List.nodup_singleton l)).mpr fun k => ?_
    rw [mem_enclosing hl, List.mem_singleton]
    constructor
    · rintro ⟨hk, rfl | h⟩
      · rfl
      · exact absurd h ((parent_eq_none hl).mp hroot k hk)
    · rintro rfl
      exact ⟨hl, Or.inl rfl⟩
  exact hperm.length_eq

/-- A parent is listed before the loops inside it. -/
theorem mem_before_of_parent {before rest : List Loop} (hsplit : f.loops = before ++ l :: rest)
    (hp : f.nest.Innermost l.Inside p) : p ∈ before := by
  have horder := loops_order (f := f)
  have hmem : p ∈ f.loops := hp.1
  rw [hsplit] at horder hmem
  rcases List.mem_append.mp hmem with h | h
  · exact h
  · rcases List.mem_cons.mp h with rfl | h
    · exact absurd hp.2.1 Loop.Inside.irrefl
    · exact absurd hp.2.1 (List.rel_of_pairwise_cons (List.pairwise_append.mp horder).2.1 h)

/-- The pass has found the depths of the loops behind it and knows nothing of those ahead. -/
theorem depths_foldl (before rest : List Loop) (t : Table BlockId Nat) (hsplit : f.loops = before ++ rest)
    (hbehind : ∀ l ∈ before, (t.get? l.header).getD 1 = (f.enclosing l).length)
    (hahead : ∀ l ∈ rest, t.get? l.header = none) (hl : l ∈ f.loops) :
    ((rest.foldl LoopNest.deepen t).get? l.header).getD 1 = (f.enclosing l).length := by
  induction rest generalizing before t with
  | nil => exact hbehind l (by simpa [hsplit] using hl)
  | cons c rest ih =>
    have hc : c ∈ f.loops := by simp [hsplit]
    have hheaders : (before.map Loop.header ++ c.header :: rest.map Loop.header).Nodup := by
      simpa [hsplit] using nodup_headers (f := f)
    obtain ⟨-, hright, hdisjoint⟩ := List.nodup_append.mp hheaders
    have hother : ∀ k ∈ before, k.header ≠ c.header := fun k hk =>
      hdisjoint _ (List.mem_map_of_mem hk) _ List.mem_cons_self
    have hlater : ∀ k ∈ rest, k.header ≠ c.header := fun k hk e =>
      (List.nodup_cons.mp hright).1 (e ▸ List.mem_map_of_mem hk)
    rw [List.forall_mem_cons] at hahead
    refine ih (before ++ [c]) (LoopNest.deepen t c) (by simp [hsplit]) ?_ ?_
    · rw [List.forall_mem_append, List.forall_mem_singleton]
      unfold LoopNest.deepen
      cases hpar : c.parent with
      | none => exact ⟨hbehind, by rw [hahead.1, enclosing_of_root hc hpar, Option.getD_none]⟩
      | some b =>
        obtain ⟨p, rfl, hp⟩ := (parent_eq_some hc).mp hpar
        have hparent := hbehind p (mem_before_of_parent hsplit hp)
        refine ⟨fun k hk => ?_, ?_⟩
        · rw [Table.get?_insert, if_neg (hother k hk).symm, hbehind k hk]
        · rw [Table.get?_insert, if_pos rfl, Option.getD_some, hparent, enclosing_of_parent hc hp]
    · intro k hk
      unfold LoopNest.deepen
      split
      · rw [Table.get?_insert, if_neg (hlater k hk).symm, hahead.2 k hk]
      · exact hahead.2 k hk

/-- **The depth of a loop is the number of loops around its header.** -/
theorem depth_eq (hl : l ∈ f.loops) : f.nest.depth l = (f.enclosing l).length :=
  depths_foldl [] f.loops .empty rfl (by simp) (by simp) hl

/-! ## The loop of a block -/

/-- The last loop with a block is the smallest. -/
theorem loopOf_eq_some : f.nest.loopOf b = some l ↔ f.nest.Innermost (b ∈ ·.blocks) l := by
  have hmem : ∀ k, k ∈ f.loops.filter (·.contains b) ↔ k ∈ f.loops ∧ b ∈ k.blocks := by simp [Loop.contains]
  have horder := (loops_order (f := f)).filter (·.contains b)
  have hlast : ∀ {l}, f.nest.loopOf b = some l → f.nest.Innermost (b ∈ ·.blocks) l := by
    intro l h
    obtain ⟨ks, hks⟩ : ∃ ks, f.loops.filter (·.contains b) = ks ++ [l] := List.getLast?_eq_some_iff.mp h
    have hl := (hmem l).mp (hks ▸ List.mem_append_right _ (List.mem_singleton_self l))
    refine ⟨hl.1, hl.2, fun k hk hb => ?_⟩
    rcases laminar hl.1 hk hl.2 hb with h | h | h
    · exact Or.inl h
    · exact Or.inr h
    · have hk' := (hmem k).mpr ⟨hk, hb⟩
      rw [hks] at hk' horder
      rcases List.mem_append.mp hk' with hk' | hk'
      · exact absurd h ((List.pairwise_append.mp horder).2.2 k hk' l (List.mem_singleton_self l))
      · exact Or.inl (List.mem_singleton.mp hk').symm
  refine ⟨hlast, ?_⟩
  rintro ⟨hl, hb, hleast⟩
  cases h : f.nest.loopOf b with
  | none =>
    have := List.getLast?_eq_none_iff.mp h
    exact absurd ((hmem l).mpr ⟨hl, hb⟩) (this ▸ List.not_mem_nil)
  | some k =>
    obtain ⟨hk, hbk, hleast'⟩ := hlast h
    rcases hleast k hk hbk with rfl | h₁
    · rfl
    · rcases hleast' l hl hb with rfl | h₂
      · rfl
      · exact absurd h₂ h₁.asymm

theorem loopOf_eq_none : f.nest.loopOf b = none ↔ ∀ k ∈ f.loops, b ∉ k.blocks := by
  rw [LoopNest.loopOf, List.getLast?_eq_none_iff, List.filter_eq_nil_iff]
  simp [Loop.contains, loops]

/-! ## Walks down the nest -/

theorem mem_family {parent : Option BlockId} : c ∈ f.nest.family parent ↔ c ∈ f.loops ∧ c.parent = parent := by
  rw [LoopNest.family, List.mem_filter, beq_iff_eq]
  rfl

theorem topLevel_eq (n : LoopNest) : n.topLevel = n.family none := by
  refine List.filter_congr fun l _ => ?_
  cases l.parent <;> rfl

/-- Loops with the same parent share no block. -/
theorem family_apart (parent : Option BlockId) :
    (f.nest.family parent).Pairwise fun c c' => ∀ b ∈ c.blocks, b ∉ c'.blocks := by
  refine ((List.pairwise_map.mp (nodup_headers (f := f))).filter _).imp_of_mem fun hc hc' hne b hb hb' => ?_
  obtain ⟨hc, hpar⟩ := mem_family.mp hc
  obtain ⟨hc', hpar'⟩ := mem_family.mp hc'
  exact Siblings.disjoint ⟨hc, hc', hne, hpar.trans hpar'.symm⟩ hb hb'

/-- Whatever lies inside a loop lies in one of its children; with no loop given, in one of the outermost loops. -/
theorem exists_family (around : Option Loop) (hm : m ∈ f.loops) (hin : ∀ l, around = some l → l ∈ f.loops ∧ m.Inside l) :
    ∃ c ∈ f.nest.family (around.map Loop.header), m = c ∨ m.Inside c := by
  -- up the chain of parents
  induction hn : (f.enclosing m).length using Nat.strongRecOn generalizing m with
  | ind n ih =>
    subst hn
    by_cases hpar : m.parent = around.map Loop.header
    · exact ⟨m, mem_family.mpr ⟨hm, hpar⟩, Or.inl rfl⟩
    · cases hmp : m.parent with
      | none =>
        cases around with
        | none => exact absurd hmp hpar
        | some l => exact absurd (hin l rfl).2 ((parent_eq_none hm).mp hmp l (hin l rfl).1)
      | some b =>
        obtain ⟨p, rfl, hp⟩ := (parent_eq_some hm).mp hmp
        have hlen := enclosing_of_parent hm hp
        obtain ⟨hp, hmp', hleast⟩ := hp
        have hpin : ∀ l, around = some l → l ∈ f.loops ∧ p.Inside l := by
          rintro l rfl
          refine ⟨(hin l rfl).1, (hleast l (hin l rfl).1 (hin l rfl).2).resolve_left ?_⟩
          rintro rfl
          exact hpar hmp
        obtain ⟨c, hc, h⟩ := ih _ (by omega) hp hpin rfl
        refine ⟨c, hc, Or.inr ?_⟩
        rcases h with rfl | h
        · exact hmp'
        · exact hmp'.trans h

/-- A list of the loops with a property, each once and after the loops inside it. -/
structure Listing (f : Func) (s : Loop → Prop) (ms : List Loop) : Prop where
  nodup : ms.Nodup
  mem : ∀ m, m ∈ ms ↔ m ∈ f.loops ∧ s m
  order : ms.Pairwise fun a b => ¬b.Inside a

theorem Listing.congr {s s' : Loop → Prop} {ms : List Loop} (h : f.Listing s ms) (hs : ∀ m ∈ f.loops, s m ↔ s' m) :
    f.Listing s' ms :=
  ⟨h.nodup, fun m => (h.mem m).trans (and_congr_right (hs m)), h.order⟩

/-- Walks down from disjoint loops, one after another. -/
theorem Listing.flatMap {walk : Loop → List Loop} {cs : List Loop}
    (hwalk : ∀ c ∈ cs, f.Listing (fun m => m = c ∨ m.Inside c) (walk c))
    (hcs : cs.Pairwise fun c c' => ∀ b ∈ c.blocks, b ∉ c'.blocks) :
    f.Listing (fun m => ∃ c ∈ cs, m = c ∨ m.Inside c) (cs.flatMap walk) := by
  have hheader : ∀ c ∈ cs, ∀ m ∈ walk c, m.header ∈ c.blocks := by
    intro c hc m hm
    obtain ⟨hmem, h⟩ := ((hwalk c hc).mem m).mp hm
    have hhead := (isLoop_of_mem hmem).header_mem
    rcases h with rfl | h
    · exact hhead
    · exact h.1 hhead
  refine ⟨List.nodup_flatMap.mpr ⟨fun c hc => (hwalk c hc).nodup, ?_⟩, fun m => ?_,
    List.pairwise_flatMap.mpr ⟨fun c hc => (hwalk c hc).order, ?_⟩⟩
  · refine hcs.imp_of_mem fun hc hc' hapart m hm hm' => ?_
    exact hapart _ (hheader _ hc m hm) (hheader _ hc' m hm')
  · rw [List.mem_flatMap]
    constructor
    · rintro ⟨c, hc, hm⟩
      obtain ⟨hm, h⟩ := ((hwalk c hc).mem m).mp hm
      exact ⟨hm, c, hc, h⟩
    · rintro ⟨hm, c, hc, h⟩
      exact ⟨c, hc, ((hwalk c hc).mem m).mpr ⟨hm, h⟩⟩
  · refine hcs.imp_of_mem fun hc hc' hapart x hx y hy hin => ?_
    -- the header of the later loop would be in both
    have hmem := (((hwalk _ hc').mem y).mp hy).1
    have hsub : y.header ∈ x.blocks := hin.1 (isLoop_of_mem hmem).header_mem
    refine hapart y.header ?_ (hheader _ hc' y hy)
    obtain ⟨_, rfl | h⟩ := ((hwalk _ hc).mem x).mp hx
    · exact hsub
    · exact h.1 hsub

/-- A walk down from a loop lists the loop and all inside it, if the bound allows for all loops below. -/
theorem postorder_listing {n : Nat} (hl : l ∈ f.loops) (hn : f.loops.length ≤ n + (f.enclosing l).length) :
    f.Listing (fun m => m = l ∨ m.Inside l) (f.nest.postorderWithin n l) := by
  induction n generalizing l with
  | zero =>
    refine ⟨List.nodup_singleton l, fun m => ?_, List.pairwise_singleton ..⟩
    rw [LoopNest.postorderWithin, List.mem_singleton]
    constructor
    · rintro rfl
      exact ⟨hl, Or.inl rfl⟩
    · rintro ⟨hm, rfl | h⟩
      · rfl
      · -- all loops are around this one
        have hlen : (f.enclosing l).length = f.loops.length :=
          Nat.le_antisymm (List.length_filter_le _ _) (by omega)
        have hall : f.enclosing l = f.loops := List.filter_eq_self.mpr (List.length_filter_eq_length_iff.mp hlen)
        obtain ⟨_, rfl | h'⟩ := (mem_enclosing hl).mp (hall ▸ hm)
        · rfl
        · exact absurd h' h.asymm
  | succ n ih =>
    have hchild : ∀ c ∈ f.nest.children l, c ∈ f.loops ∧ f.nest.Innermost c.Inside l := by
      intro c hc
      obtain ⟨hmem, hpar⟩ := mem_family.mp hc
      obtain ⟨p, he, hp⟩ := (parent_eq_some hmem).mp hpar
      exact ⟨hmem, eq_of_header_eq hp.1 hl he ▸ hp⟩
    have hbelow : f.Listing (fun m => m.Inside l) ((f.nest.children l).reverse.flatMap (f.nest.postorderWithin n)) := by
      refine (Listing.flatMap (fun c hc => ?_) ?_).congr fun m hm => ⟨?_, fun h => ?_⟩
      · obtain ⟨hmem, hpar⟩ := hchild c (List.mem_reverse.mp hc)
        have hlen := enclosing_of_parent hmem hpar
        exact ih hmem (by omega)
      · exact List.pairwise_reverse.mpr ((family_apart _).imp fun hapart b hb hb' => hapart b hb' hb)
      · rintro ⟨c, hc, h⟩
        have hcl := (hchild c (List.mem_reverse.mp hc)).2.2.1
        rcases h with rfl | h
        · exact hcl
        · exact h.trans hcl
      · obtain ⟨c, hc, h⟩ := exists_family (some l) hm fun _ e => Option.some.inj e ▸ ⟨hl, h⟩
        exact ⟨c, List.mem_reverse.mpr hc, h⟩
    refine ⟨List.nodup_append.mpr ⟨hbelow.nodup, List.nodup_singleton l, ?_⟩, fun m => ?_,
      List.pairwise_append.mpr ⟨hbelow.order, List.pairwise_singleton .., ?_⟩⟩
    · rintro m hm _ hl' rfl
      obtain rfl := List.mem_singleton.mp hl'
      exact (((hbelow.mem m).mp hm).2).irrefl
    · rw [LoopNest.postorderWithin, List.mem_append, hbelow.mem, List.mem_singleton]
      constructor
      · rintro (⟨hm, h⟩ | rfl)
        · exact ⟨hm, Or.inr h⟩
        · exact ⟨hl, Or.inl rfl⟩
      · rintro ⟨hm, rfl | h⟩
        · exact Or.inr rfl
        · exact Or.inl ⟨hm, h⟩
    · intro m hm k hk
      obtain rfl := List.mem_singleton.mp hk
      exact ((hbelow.mem m).mp hm).2.asymm

/-- **The order of discovery lists every loop once, after all loops inside it.** -/
theorem discovery_listing : f.Listing (fun _ => True) f.nest.discovery := by
  refine (Listing.flatMap (fun c hc => ?_) ?_).congr fun m hm => iff_true_intro ?_
  · rw [List.mem_reverse, topLevel_eq, mem_family] at hc
    exact postorder_listing hc.1 (Nat.le_add_right ..)
  · rw [topLevel_eq]
    exact List.pairwise_reverse.mpr ((family_apart _).imp fun hapart b hb hb' => hapart b hb' hb)
  · obtain ⟨c, hc, h⟩ := exists_family none hm fun _ h => absurd h (Option.some_ne_none _).symm
    rw [topLevel_eq]
    exact ⟨c, List.mem_reverse.mpr hc, h⟩

/-! ## Groups of siblings -/

/-- The groups before they are sorted, each with the depth of its loops. -/
def gradedFamilies (n : LoopNest) : List (Nat × List Loop) :=
  (n.discovery.filter fun l => 2 ≤ (n.children l).length).map (fun l => (n.depth l + 1, n.children l)) ++
    if 2 ≤ n.topLevel.length then [(1, n.topLevel)] else []

theorem siblingGroups_eq (n : LoopNest) :
    n.siblingGroups = (sortBy (fun a b => decide (b.1 ≤ a.1)) (gradedFamilies n)).map (·.2) := rfl

theorem mem_gradedFamilies {d : Nat} {g : List Loop} : (d, g) ∈ gradedFamilies f.nest ↔
    2 ≤ g.length ∧ ((∃ l ∈ f.loops, d = f.nest.depth l + 1 ∧ g = f.nest.family (some l.header)) ∨
      d = 1 ∧ g = f.nest.family none) := by
  rw [gradedFamilies, List.mem_append, List.mem_map, and_or_left]
  refine or_congr ⟨?_, ?_⟩ ?_
  · rintro ⟨l, hl, e⟩
    rw [List.mem_filter, decide_eq_true_eq] at hl
    cases e
    exact ⟨hl.2, l, ((discovery_listing.mem l).mp hl.1).1, rfl, rfl⟩
  · rintro ⟨hlen, l, hl, rfl, rfl⟩
    refine ⟨l, ?_, rfl⟩
    rw [List.mem_filter, decide_eq_true_eq]
    exact ⟨(discovery_listing.mem l).mpr ⟨hl, trivial⟩, hlen⟩
  · rw [topLevel_eq]
    split
    · rename_i h
      rw [List.mem_singleton, Prod.mk.injEq]
      exact ⟨fun e => ⟨e.2 ▸ h, e⟩, And.right⟩
    · rename_i h
      exact ⟨fun hg => absurd hg List.not_mem_nil, fun hg => absurd (hg.2.2 ▸ hg.1) h⟩

theorem depth_of_gradedFamilies {d : Nat} {g : List Loop} (hg : (d, g) ∈ gradedFamilies f.nest) (hc : c ∈ g) :
    f.nest.depth c = d := by
  obtain ⟨_, ⟨l, hl, rfl, rfl⟩ | ⟨rfl, rfl⟩⟩ := mem_gradedFamilies.mp hg
  · obtain ⟨hmem, hpar⟩ := mem_family.mp hc
    obtain ⟨p, he, hp⟩ := (parent_eq_some hmem).mp hpar
    obtain rfl := eq_of_header_eq hp.1 hl he
    rw [depth_eq hmem, depth_eq hl, enclosing_of_parent hmem hp]
  · obtain ⟨hc, hpar⟩ := mem_family.mp hc
    rw [depth_eq hc, enclosing_of_root hc hpar]

/-- The groups are the families of at least two loops. -/
theorem mem_siblingGroups {g : List Loop} :
    g ∈ f.nest.siblingGroups ↔ ∃ parent, g = f.nest.family parent ∧ 2 ≤ g.length := by
  have hgraded : g ∈ f.nest.siblingGroups ↔ ∃ d, (d, g) ∈ gradedFamilies f.nest := by
    simp [siblingGroups_eq]
  rw [hgraded]
  constructor
  · rintro ⟨d, hg⟩
    obtain ⟨hlen, ⟨l, _, _, hfam⟩ | ⟨_, hfam⟩⟩ := mem_gradedFamilies.mp hg
    · exact ⟨_, hfam, hlen⟩
    · exact ⟨_, hfam, hlen⟩
  · rintro ⟨parent, hfam, hlen⟩
    cases parent with
    | none => exact ⟨1, mem_gradedFamilies.mpr ⟨hlen, Or.inr ⟨rfl, hfam⟩⟩⟩
    | some h =>
      obtain ⟨c, hc⟩ := List.exists_mem_of_length_pos (Nat.lt_of_lt_of_le Nat.zero_lt_two hlen)
      obtain ⟨hmem, hpar⟩ := mem_family.mp (hfam ▸ hc)
      obtain ⟨l, hl, rfl, _⟩ := exists_of_parent hmem hpar
      exact ⟨_, mem_gradedFamilies.mpr ⟨hlen, Or.inl ⟨l, hl, rfl, hfam⟩⟩⟩

/-- No loop is in two groups. -/
theorem nodup_siblingGroups : f.nest.siblingGroups.flatten.Nodup := by
  have hfamily : ∀ parent, (f.nest.family parent).Nodup := fun _ => nodup_loops.filter _
  have hgroups : ((gradedFamilies f.nest).flatMap (·.2)).Nodup := by
    rw [gradedFamilies, List.flatMap_append, List.flatMap_map]
    refine List.nodup_append.mpr ⟨List.nodup_flatMap.mpr ⟨fun l _ => hfamily _, ?_⟩, ?_, ?_⟩
    · refine (discovery_listing.nodup.filter _).imp_of_mem fun hl hl' hne c hc hc' => ?_
      have hmem := ((discovery_listing.mem _).mp (List.mem_of_mem_filter hl)).1
      have hmem' := ((discovery_listing.mem _).mp (List.mem_of_mem_filter hl')).1
      have hhead := (mem_family.mp hc).2.symm.trans (mem_family.mp hc').2
      exact hne (eq_of_header_eq hmem hmem' (Option.some.inj hhead))
    · rw [topLevel_eq]
      split
      · simpa using hfamily none
      · exact .nil
    · rintro c hc _ hc' rfl
      obtain ⟨l, _, hc⟩ := List.mem_flatMap.mp hc
      rw [topLevel_eq] at hc'
      split at hc'
      · have hc' : c ∈ f.nest.family none := by simpa using hc'
        cases (mem_family.mp hc).2.symm.trans (mem_family.mp hc').2
      · cases hc'
  rw [siblingGroups_eq, ← List.flatMap_def]
  exact ((perm_sortBy _ _).flatMap_right _).nodup_iff.mpr hgroups

/-- Deeper groups come first. -/
theorem siblingGroups_order :
    f.nest.siblingGroups.Pairwise fun g g' => ∀ c ∈ g, ∀ c' ∈ g', f.nest.depth c' ≤ f.nest.depth c := by
  have hsorted := sortBy_pairwise (fun a b : Nat × List Loop => decide (b.1 ≤ a.1))
    (fun a b c hab hbc => by simp only [decide_eq_true_eq] at *; omega)
    (fun a b => by simp only [decide_eq_true_eq]; omega) (gradedFamilies f.nest)
  rw [siblingGroups_eq, List.pairwise_map]
  refine hsorted.imp_of_mem fun {a b} ha hb hle c hc c' hc' => ?_
  rw [depth_of_gradedFamilies (mem_sortBy.mp ha) hc, depth_of_gradedFamilies (mem_sortBy.mp hb) hc']
  exact of_decide_eq_true hle

/-- **The loops of a function form a forest.** Any two loops are disjoint or nested. The parent of a loop is the smallest
loop around it, and its depth the number of loops that have its header; the loop of a block is the smallest one that has
it. The order of discovery lists every loop once, after all loops inside it. The groups of siblings are the sets of two or
more loops with one parent; they share no loop, and deeper groups come first. -/
theorem loopNest_forest (f : Func) :
    (∀ l ∈ f.nest.loops, ∀ k ∈ f.nest.loops, l ≠ k →
      (∀ b ∈ l.blocks, b ∉ k.blocks) ∨ l.Inside k ∨ k.Inside l) ∧
    (∀ l ∈ f.nest.loops,
      (l.parent = none ↔ ∀ k ∈ f.nest.loops, ¬l.Inside k) ∧
      (∀ h, l.parent = some h ↔ ∃ p, p.header = h ∧ f.nest.Innermost l.Inside p) ∧
      f.nest.depth l = (f.nest.loops.filter (·.contains l.header)).length ∧
      ∀ c, c ∈ f.nest.children l ↔ c ∈ f.nest.loops ∧ c.parent = some l.header) ∧
    (∀ b,
      (f.nest.loopOf b = none ↔ ∀ k ∈ f.nest.loops, b ∉ k.blocks) ∧
      ∀ l, f.nest.loopOf b = some l ↔ f.nest.Innermost (b ∈ ·.blocks) l) ∧
    (f.nest.discovery.Nodup ∧
      (∀ l, l ∈ f.nest.discovery ↔ l ∈ f.nest.loops) ∧
      f.nest.discovery.Pairwise fun a b => ¬b.Inside a) ∧
    (∀ g, g ∈ f.nest.siblingGroups ↔ ∃ parent, g = f.nest.family parent ∧ 2 ≤ g.length) ∧
    f.nest.siblingGroups.flatten.Nodup ∧
    f.nest.siblingGroups.Pairwise fun g g' => ∀ c ∈ g, ∀ c' ∈ g', f.nest.depth c' ≤ f.nest.depth c := by
  refine ⟨fun l hl k hk hne => ?_,
    fun l hl => ⟨parent_eq_none hl, fun h => parent_eq_some hl, depth_eq hl, fun c => mem_family⟩,
    fun b => ⟨loopOf_eq_none, fun l => loopOf_eq_some⟩,
    ⟨discovery_listing.nodup, fun l => (discovery_listing.mem l).trans (iff_of_eq (and_true _)), discovery_listing.order⟩,
    fun g => mem_siblingGroups, nodup_siblingGroups, siblingGroups_order⟩
  by_cases hshare : ∃ b ∈ l.blocks, b ∈ k.blocks
  · obtain ⟨b, hbl, hbk⟩ := hshare
    exact Or.inr ((laminar hl hk hbl hbk).resolve_left hne)
  · exact Or.inl fun b hbl hbk => hshare ⟨b, hbl, hbk⟩

end Func

/-! ## Candidates for fusion -/

theorem neighbours_rel {α : Type} {R : α → α → Prop} {as : List α} (h : as.Pairwise R) {a b : α}
    (hm : (a, b) ∈ neighbours as) : R a b := by
  induction as with
  | nil => cases hm
  | cons x rest ih =>
    obtain ⟨hx, hrest⟩ := List.pairwise_cons.mp h
    cases rest with
    | nil => cases hm
    | cons y r =>
      rcases List.mem_cons.mp hm with e | hm
      · obtain ⟨rfl, rfl⟩ := Prod.mk.inj e
        exact hx _ (List.mem_cons_self ..)
      · exact ih hrest hm

theorem mem_of_neighbours {α : Type} {as : List α} {a b : α} (hm : (a, b) ∈ neighbours as) : a ∈ as ∧ b ∈ as :=
  ⟨(List.of_mem_zip hm).1, List.mem_of_mem_tail (List.of_mem_zip hm).2⟩

theorem Func.siblings_of_candidate {f : Func} {l₁ l₂ : Loop} (hm : (l₁, l₂) ∈ (Snapshot.of f).candidates) :
    f.Siblings l₁ l₂ := by
  obtain ⟨group, hgroup, hpair⟩ := List.mem_flatMap.mp hm
  obtain ⟨parent, rfl, _⟩ := mem_siblingGroups.mp hgroup
  obtain ⟨h₁, h₂⟩ := mem_of_neighbours hpair
  obtain ⟨hl₁, hpar₁⟩ := mem_family.mp h₁
  obtain ⟨hl₂, hpar₂⟩ := mem_family.mp h₂
  refine ⟨hl₁, hl₂, ?_, hpar₁.trans hpar₂.symm⟩
  exact neighbours_rel ((List.pairwise_map.mp (nodup_headers (f := f))).filter _) hpair

end SsaFusion
