import SsaFusion.Flow.Dominance
import SsaFusion.Proofs.Data.Table
import SsaFusion.Proofs.Flow.Tour

/-!
# Sweeps find the immediate dominators

While sweeps go on, the nodes bound so far form a tree, in which every node but the root is bound to one listed before it
(`Rising`). Two nodes that climb in turns meet at their closest common ancestor (`exists_intersect`), so a visit binds a
node to the closest common ancestor of its bound predecessors.

`Settling` is what visits keep. No dominator of a node is ever lost from above it, since a strict dominator of the node
dominates what the node is bound to (`dominated`). What lies above all predecessors of a node lies above what the node is
bound to (`common`), so that a node is bound again only to something above: places get smaller, and sweeps end
(`exists_settle`). The tree changes under the nodes that a sweep has not come to yet; that `common` survives this rests on
the predecessors listed before a node, one of which every node has (`forward`).

Once a sweep changes nothing, what lies above a node lies above all its predecessors. So nothing but dominators is above
it, and the tree is that of dominance (`exists_immediateDominators`).
-/

namespace SsaFusion

/-! ## Trees of bound nodes -/

/-- Going up from the second node leads to the first. -/
inductive Above {ν : Type} (up : ν → Option ν) (a : ν) : ν → Prop
  | refl : Above up a a
  | step {x p : ν} : up x = some p → Above up a p → Above up a x

variable {ν : Type} {next preds : ν → List ν} {order : List ν} {root : ν} {up : ν → Option ν} {i : Nat} {a b c d p x w : ν}

theorem Above.trans (h : Above up a b) (h' : Above up b c) : Above up a c := by
  induction h' with
  | refl => exact h
  | step hp _ ih => exact .step hp ih

/-- What is above another node is above what the node is bound to. -/
theorem Above.parent (ha : Above up a x) (hne : a ≠ x) (hp : up x = some p) : Above up a p := by
  cases ha with
  | refl => exact absurd rfl hne
  | step hq ha => rwa [Option.some.inj (hp.symm.trans hq)]

variable [DecidableEq ν]

/-- Nodes are bound to bound nodes listed before them, but for the root, which is bound to itself. -/
structure Rising (order : List ν) (root : ν) (up : ν → Option ν) : Prop where
  base : up root = some root
  listed : ∀ {x}, (up x).isSome → x ∈ order
  closed : ∀ {x p}, up x = some p → (up p).isSome
  lower : ∀ {x p}, up x = some p → x ≠ root → order.idxOf p < order.idxOf x

namespace Rising

variable (h : Rising order root up)

include h

theorem place_le (ha : Above up a x) : order.idxOf a ≤ order.idxOf x := by
  induction ha with
  | refl => exact Nat.le_refl _
  | @step x p hp _ ih =>
    by_cases hx : x = root
    · rw [hx, h.base] at hp
      rw [hx, Option.some.inj hp]
      exact ih
    · exact Nat.le_of_lt (Nat.lt_of_le_of_lt ih (h.lower hp hx))

theorem place_lt (hx : (up x).isSome) : order.idxOf x < order.length := List.idxOf_lt_length_of_mem (h.listed hx)

theorem bound (ha : Above up a x) (hx : (up x).isSome) : (up a).isSome := by
  induction ha with
  | refl => exact hx
  | step hp _ ih => exact ih (h.closed hp)

theorem eq_root_of_above (ha : Above up a root) : a = root := by
  generalize hr : root = r at ha
  induction ha with
  | refl => rfl
  | step hp _ ih =>
    rw [← hr, h.base] at hp
    rw [ih (Option.some.inj hp), ← Option.some.inj hp, hr]

/-- Of two nodes above a third the one listed first is above the other. -/
theorem above_of_le (ha : Above up a x) (hb : Above up b x) (hle : order.idxOf a ≤ order.idxOf b) : Above up a b := by
  induction hb with
  | refl => exact ha
  | @step x p hp hb ih =>
    by_cases hax : a = x
    · by_cases hx : x = root
      · subst hax hx
        exact h.eq_root_of_above (.step hp hb) ▸ .refl
      · have := h.place_le hb
        have := h.lower hp hx
        rw [hax] at hle
        omega
    · exact ih (ha.parent hax hp)

end Rising

/-! ## Closest common ancestors -/

section Climb

theorem place_root (hroot : order.head? = some root) : order.idxOf root = 0 := by
  obtain ⟨rest, rfl⟩ := List.head?_eq_some_iff.mp hroot
  simp

variable {idom : Table ν ν} (h : Rising order root idom.get?) (hroot : order.head? = some root)

include h hroot

/-- A climb ends at a node listed no later than the place, and passes nothing listed no later. -/
theorem exists_climb (place : Nat) {k : Nat} (hx : (idom.get? x).isSome) (hk : order.idxOf x < k) :
    ∃ y, climb order idom place k x = some y ∧ Above idom.get? y x ∧ order.idxOf y ≤ place ∧
      ∀ d, order.idxOf d ≤ place → Above idom.get? d x → Above idom.get? d y := by
  induction k generalizing x with
  | zero => omega
  | succ k ih =>
    obtain ⟨p, hx⟩ := Option.isSome_iff_exists.mp hx
    unfold climb
    split
    · rename_i hlt
      have hne : x ≠ root := by
        rintro rfl
        rw [place_root hroot] at hlt
        omega
      have hlower := h.lower hx hne
      obtain ⟨y, hy, hyp, hle, hall⟩ := ih (h.closed hx) (by omega)
      refine ⟨y, by rw [hx]; exact hy, .step hx hyp, hle, fun d hd hdx => hall d hd ?_⟩
      refine hdx.parent ?_ hx
      rintro rfl
      omega
    · rename_i hle
      exact ⟨x, rfl, .refl, by omega, fun _ _ hdx => hdx⟩

/-- Two nodes that climb in turns meet at their closest common ancestor. -/
theorem exists_intersect {k : Nat} (ha : (idom.get? a).isSome) (hb : (idom.get? b).isSome)
    (hka : order.idxOf a < k) (hkb : order.idxOf b < k) :
    ∃ c, intersect order idom k a b = some c ∧
      ∀ d, Above idom.get? d c ↔ Above idom.get? d a ∧ Above idom.get? d b := by
  induction k generalizing a b with
  | zero => omega
  | succ k ih =>
    unfold intersect
    split
    · rename_i e
      exact ⟨a, rfl, fun d => ⟨fun hd => ⟨hd, e ▸ hd⟩, And.left⟩⟩
    · rename_i hne
      have hplaces : order.idxOf a ≠ order.idxOf b := fun e => hne ((List.idxOf_inj (h.listed ha)).mp e)
      obtain ⟨a', hclimba, haa, hab, halla⟩ := exists_climb h hroot (order.idxOf b) ha (h.place_lt ha)
      obtain ⟨b', hclimbb, hbb, hba, hallb⟩ := exists_climb h hroot (order.idxOf a') hb (h.place_lt hb)
      have hle := h.place_le haa
      obtain ⟨c, hc, hcommon⟩ := ih (h.bound haa ha) (h.bound hbb hb) (by omega) (by omega)
      refine ⟨c, by simpa [hclimba, hclimbb] using hc, fun d => (hcommon d).trans ⟨fun hd => ?_, fun hd => ?_⟩⟩
      · exact ⟨hd.1.trans haa, hd.2.trans hbb⟩
      · have hda := halla d (h.place_le hd.2) hd.1
        exact ⟨hda, hallb d (h.place_le hda) hd.2⟩

/-- So do more than two. -/
theorem exists_foldlM_intersect {l : List ν} (hl : ∀ q ∈ a :: l, (idom.get? q).isSome) :
    ∃ c, l.foldlM (fun new q => intersect order idom order.length q new) a = some c ∧
      ∀ d, Above idom.get? d c ↔ ∀ q ∈ a :: l, Above idom.get? d q := by
  induction l generalizing a with
  | nil => exact ⟨a, rfl, fun d => by simp⟩
  | cons q l ih =>
    simp only [List.forall_mem_cons] at hl ih
    obtain ⟨m, hm, hmeet⟩ := exists_intersect h hroot hl.2.1 hl.1 (h.place_lt hl.2.1) (h.place_lt hl.1)
    obtain ⟨c, hc, hcommon⟩ := ih ⟨h.bound ((hmeet m).mp .refl).1 hl.2.1, hl.2.2⟩
    refine ⟨c, by simpa [hm] using hc, fun d => (hcommon d).trans ?_⟩
    simp only [List.forall_mem_cons, hmeet]
    tauto

end Climb

/-! ## What visits keep -/

/-- A graph listed from its root, with the predecessors of its nodes. -/
structure PredsOf (next preds : ν → List ν) (root : ν) (order : List ν) : Prop extends Listed next root order where
  preds : ∀ x ∈ order, x ≠ root → ∀ p ∈ order, p ∈ preds x ↔ x ∈ next p

/-- A node is the closest common ancestor of the bound predecessors of another. -/
def Meets (preds : ν → List ν) (up : ν → Option ν) (x c : ν) : Prop :=
  ∀ d, Above up d c ↔ ∀ q ∈ preds x, (up q).isSome → Above up d q

/-- What holds when a sweep comes to a place. -/
structure Settling (next preds : ν → List ν) (root : ν) (order : List ν) (i : Nat) (up : ν → Option ν) : Prop
    extends Rising order root up where
  initial : ∀ {x p}, up x = some p → ∀ y ∈ order, order.idxOf y ≤ order.idxOf x → (up y).isSome
  passed : ∀ x ∈ order, order.idxOf x < i → (up x).isSome
  dominated : ∀ {x p}, up x = some p → x ≠ root → ∀ d, Doms next root d x → d ≠ x → Doms next root d p
  common : ∀ {x p}, up x = some p → x ≠ root → ∀ d, (∀ q ∈ preds x, (up q).isSome → Above up d q) → Above up d p
  forward : ∀ {x p}, up x = some p → x ≠ root → ∀ t ∈ preds x, order.idxOf t < order.idxOf x →
    ∀ d, Above up d p → order.idxOf x < i ∨ i ≤ order.idxOf d → Above up d t

namespace Settling

/-- Dominators of a bound node are above it. -/
theorem above_of_doms (h : Settling next preds root order i up) (hx : (up x).isSome) (hd : Doms next root d x) :
    Above up d x := by
  induction hn : order.idxOf x using Nat.strongRecOn generalizing x with
  | ind n ih =>
    obtain ⟨p, hx⟩ := Option.isSome_iff_exists.mp hx
    by_cases hdx : d = x
    · exact hdx ▸ .refl
    · by_cases hroot : x = root
      · exact absurd (hroot ▸ (hroot ▸ hd).eq_root) hdx
      · exact .step hx (ih _ (hn ▸ h.lower hx hroot) (h.closed hx) (h.dominated hx hroot d hd hdx) rfl)

/-- A dominator of a node dominates what lies between them. -/
theorem doms_between (h : Settling next preds root order i up) (hd : Doms next root d x) (hc : Above up c x)
    (hdc : Above up d c) : Doms next root d c := by
  induction hc with
  | refl => exact hd
  | @step x p hp hc ih =>
    by_cases hroot : x = root
    · subst hroot
      rw [hd.eq_root]
      exact .root c
    · by_cases hdx : d = x
      · have := h.place_le hdc
        have := h.place_le hc
        have := h.lower hp hroot
        rw [hdx] at *
        omega
      · exact ih (h.dominated hp hroot d hd hdx)

/-- Between sweeps the place does not matter. -/
theorem restart (h : Settling next preds root order order.length up) : Settling next preds root order 1 up :=
  { h with
    passed := fun x hx _ => h.passed x hx (List.idxOf_lt_length_of_mem hx)
    forward := fun hx hroot t ht hlt d hd _ =>
      h.forward hx hroot t ht hlt d hd (Or.inl (h.place_lt (Option.isSome_of_mem hx))) }

end Settling

theorem mem_of_idxOf_lt (hx : x ∈ order) (h : order.idxOf a < order.idxOf x) : a ∈ order :=
  List.idxOf_lt_length_iff.mp (Nat.lt_trans h (List.idxOf_lt_length_of_mem hx))

/-- Every node but the root has a predecessor listed before it. -/
theorem PredsOf.exists_earlier (hg : PredsOf next preds root order) (hx : x ∈ order) (hne : x ≠ root) :
    ∃ t ∈ preds x, order.idxOf t < order.idxOf x := by
  have hplaces : order.Pairwise fun a b => order.idxOf a < order.idxOf b :=
    List.pairwise_iff_getElem.mpr fun i j hi hj hij => by
      rw [hg.nodup.idxOf_getElem, hg.nodup.idxOf_getElem]
      exact hij
  obtain ⟨u, hsub, hs⟩ := hg.entered x hx hne
  have hu : u ∈ order := hsub.subset List.mem_cons_self
  exact ⟨u, (hg.preds x hx hne u hu).mpr hs, List.rel_of_pairwise_cons (hplaces.sublist hsub) (by simp)⟩

/-- A sweep binds the node at its place to the closest common ancestor of the bound predecessors. -/
structure Binding (next preds : ν → List ν) (root : ν) (order : List ν) (i : Nat) (up : ν → Option ν) (w c : ν) : Prop
    extends Settling next preds root order i up where
  graph : PredsOf next preds root order
  mem : w ∈ order
  place : order.idxOf w = i
  ne_root : w ≠ root
  meets : Meets preds up w c

namespace Binding

theorem bound_update (hx : (up x).isSome) : (Function.update up w (some c) x).isSome := by
  by_cases e : x = w
  · rw [e, Function.update_self, Option.isSome_some]
  · rwa [Function.update_of_ne e]

variable (h : Binding next preds root order i up w c)

include h

/-- What the node is bound to is bound and listed before it. -/
theorem target : (up c).isSome ∧ order.idxOf c < i := by
  obtain ⟨t, ht, hlt⟩ := h.graph.exists_earlier h.mem h.ne_root
  have hbound := h.passed t (mem_of_idxOf_lt h.mem hlt) (h.place ▸ hlt)
  have habove : Above up c t := (h.meets c).mp .refl t ht hbound
  exact ⟨h.bound habove hbound, h.place ▸ Nat.lt_of_le_of_lt (h.place_le habove) hlt⟩

theorem eq_node (hx : x ∈ order) (e : order.idxOf x = i) : x = w := (List.idxOf_inj hx).mp (e.trans h.place.symm)

theorem ne_node (hx : order.idxOf x < i) : x ≠ w := by
  rintro rfl
  exact Nat.ne_of_lt hx h.place

/-- The tree does not change at the places before. -/
theorem above_before (hx : order.idxOf x < i) : Above (Function.update up w (some c)) d x ↔ Above up d x := by
  have hle : ∀ {y p}, up y = some p → order.idxOf y < i → order.idxOf p < i := fun hp hy =>
    Nat.lt_of_le_of_lt (h.place_le (.step hp .refl)) hy
  constructor
  · intro hd
    induction hd with
    | refl => exact .refl
    | step hp _ ih =>
      rw [Function.update_of_ne (h.ne_node hx)] at hp
      exact .step hp (ih (hle hp hx))
  · intro hd
    induction hd with
    | refl => exact .refl
    | step hp _ ih => exact .step (by rwa [Function.update_of_ne (h.ne_node hx)]) (ih (hle hp hx))

/-- What is listed from the place on stays above the same nodes. -/
theorem above_from (hd : i ≤ order.idxOf d) : Above (Function.update up w (some c)) d x ↔ Above up d x := by
  constructor
  · intro hx
    induction hx with
    | refl => exact .refl
    | @step x p hp hx ih =>
      by_cases hxw : x = w
      · rw [hxw, Function.update_self] at hp
        obtain rfl := Option.some.inj hp
        have := h.place_le ih
        have := h.target.2
        omega
      · rw [Function.update_of_ne hxw] at hp
        exact .step hp ih
  · intro hx
    induction hx with
    | refl => exact .refl
    | @step x p hp hx ih =>
      refine .step ?_ ih
      rw [Function.update_of_ne ?_, hp]
      rintro rfl
      have := h.place_le hx
      have := h.lower hp h.ne_root
      have := h.place
      omega

/-- Nothing new comes to be above a bound node. -/
theorem above_old (hx : (up x).isSome) (hd : Above (Function.update up w (some c)) d x) : Above up d x := by
  induction hd with
  | refl => exact .refl
  | @step x p hp hd ih =>
    obtain ⟨q, hq⟩ := Option.isSome_iff_exists.mp hx
    by_cases hxw : x = w
    · subst hxw
      rw [Function.update_self] at hp
      obtain rfl := Option.some.inj hp
      have hdc : Above up d c := (h.above_before h.target.2).mp hd
      exact .step hq (h.common hq h.ne_root d ((h.meets d).mp hdc))
    · rw [Function.update_of_ne hxw] at hp
      exact .step hp (ih (h.closed hp))

/-- What is above a node stays above it unless the node bound again lies between. -/
theorem above_aside (hd : Above up d x) (hw : ¬Above up w x) : Above (Function.update up w (some c)) d x := by
  induction hd with
  | refl => exact .refl
  | @step x p hp _ ih =>
    refine .step ?_ (ih fun h => hw (.step hp h))
    rw [Function.update_of_ne ?_, hp]
    rintro rfl
    exact hw .refl

theorem rising : Rising order root (Function.update up w (some c)) := by
  refine ⟨by rw [Function.update_of_ne h.ne_root.symm, h.base], fun {x} hx => ?_, fun {x p} hp => bound_update ?_,
    fun {x p} hp hne => ?_⟩
  all_goals by_cases hx : x = w
  · exact hx ▸ h.mem
  · rename_i hbound
    exact h.listed (by rwa [Function.update_of_ne hx] at hbound)
  · rw [hx, Function.update_self] at hp
    exact Option.some.inj hp ▸ h.target.1
  · exact h.closed (by rwa [Function.update_of_ne hx] at hp)
  · rw [hx, Function.update_self] at hp
    rw [hx, h.place, ← Option.some.inj hp]
    exact h.target.2
  · exact h.lower (by rwa [Function.update_of_ne hx] at hp) hne

/-- A strict dominator of the node dominates its predecessors, so it is above what the node is bound to. -/
theorem doms_target (hd : Doms next root d w) (hne : d ≠ w) : Doms next root d c := by
  have hpred : ∀ q ∈ preds w, (up q).isSome → Doms next root d q := fun q hq hb =>
    hd.of_step hne ((h.graph.preds w h.mem h.ne_root q (h.listed hb)).mp hq)
  have habove : Above up d c := (h.meets d).mpr fun q hq hb => h.above_of_doms hb (hpred q hq hb)
  obtain ⟨t, ht, hlt⟩ := h.graph.exists_earlier h.mem h.ne_root
  have hbound := h.passed t (mem_of_idxOf_lt h.mem hlt) (h.place ▸ hlt)
  exact h.doms_between (hpred t ht hbound) ((h.meets c).mp .refl t ht hbound) habove

/-- What is above all bound predecessors of another node after the node was bound is above what the other is bound to. If
the node bound lies between, it also lies above an earlier predecessor of the other, and what is above that one and listed
before the node is above the node. -/
theorem common_other (hx : up x = some p) (hroot : x ≠ root)
    (hall : ∀ q ∈ preds x, (Function.update up w (some c) q).isSome → Above (Function.update up w (some c)) d q) :
    Above (Function.update up w (some c)) d p := by
  have hd : Above up d p := h.common hx hroot d fun q hq hb => h.above_old hb (hall q hq (bound_update hb))
  have hmem : x ∈ order := h.listed (Option.isSome_of_mem hx)
  by_cases hw : Above up w p
  · rcases Nat.lt_or_ge (order.idxOf d) i with hlt | hge
    · obtain ⟨t, ht, htx⟩ := h.graph.exists_earlier hmem hroot
      have hwt : Above up w t := h.forward hx hroot t ht htx w hw (Or.inr (Nat.le_of_eq h.place.symm))
      have hfrom : ∀ {y}, Above up w y → Above (Function.update up w (some c)) w y :=
        (h.above_from (Nat.le_of_eq h.place.symm)).mpr
      have hdt := hall t ht (bound_update (h.initial hx t (mem_of_idxOf_lt hmem htx) (Nat.le_of_lt htx)))
      have hdw := h.rising.above_of_le hdt (hfrom hwt) (by rw [h.place]; exact Nat.le_of_lt hlt)
      exact hdw.trans (hfrom hw)
    · exact (h.above_from hge).mpr hd
  · exact h.above_aside hd hw

/-- **A visit keeps what holds**, one place on. -/
theorem settling : Settling next preds root order (i + 1) (Function.update up w (some c)) := by
  have hpassed : ∀ y ∈ order, order.idxOf y < i + 1 → (Function.update up w (some c) y).isSome := by
    intro y hy hle
    rcases Nat.lt_or_eq_of_le (Nat.le_of_lt_succ hle) with hlt | e
    · exact bound_update (h.passed y hy hlt)
    · rw [h.eq_node hy e, Function.update_self, Option.isSome_some]
  refine { h.rising with initial := ?_, passed := hpassed, dominated := ?_, common := ?_, forward := ?_ }
  all_goals
    intro x p hp
    by_cases hx : x = w
  · intro y hy hle
    exact hpassed y hy (by rw [hx, h.place] at hle; omega)
  · intro y hy hle
    rw [Function.update_of_ne hx] at hp
    exact bound_update (h.initial hp y hy hle)
  · rw [hx, Function.update_self] at hp
    obtain rfl := Option.some.inj hp
    exact fun _ d hd hne => h.doms_target (hx ▸ hd) (hx ▸ hne)
  · rw [Function.update_of_ne hx] at hp
    exact h.dominated hp
  · intro _ d hall
    rw [hx, Function.update_self] at hp
    obtain rfl := Option.some.inj hp
    refine (h.above_before h.target.2).mpr ((h.meets d).mpr fun q hq hb => ?_)
    exact h.above_old hb (hall q (hx ▸ hq) (bound_update hb))
  · rw [Function.update_of_ne hx] at hp
    exact fun hroot d hall => h.common_other hp hroot hall
  · rintro _ t ht htx d hd -
    rw [hx, h.place] at htx
    rw [hx, Function.update_self] at hp
    obtain rfl := Option.some.inj hp
    have hbound := h.passed t (mem_of_idxOf_lt h.mem (h.place ▸ htx)) htx
    exact (h.above_before htx).mpr ((h.meets d).mp ((h.above_before h.target.2).mp hd) t (hx ▸ ht) hbound)
  · intro hroot t ht htx d hd hcase
    rw [Function.update_of_ne hx] at hp
    rcases hcase with hlt | hge
    · have hne : order.idxOf x ≠ i := fun e => hx (h.eq_node (h.listed (Option.isSome_of_mem hp)) e)
      have hxi : order.idxOf x < i := by omega
      have hdp : Above up d p := (h.above_before (Nat.lt_trans (h.lower hp hroot) hxi)).mp hd
      exact (h.above_before (Nat.lt_trans htx hxi)).mpr (h.forward hp hroot t ht htx d hdp (Or.inl hxi))
    · rw [h.above_from (by omega)] at hd ⊢
      exact h.forward hp hroot t ht htx d hd (Or.inr (by omega))

end Binding

/-! ## Sweeps end -/

/-- The places of what the nodes of a list are bound to, with a bound for those not bound yet. -/
def weight (order : List ν) (up : ν → Option ν) : List ν → Nat
  | [] => 0
  | x :: rest => (up x).elim order.length order.idxOf + weight order up rest

theorem weight_le (order : List ν) (up : ν → Option ν) (l : List ν) : weight order up l ≤ l.length * order.length := by
  induction l with
  | nil => simp [weight]
  | cons x rest ih =>
    have hx : (up x).elim order.length order.idxOf ≤ order.length := by
      cases up x with
      | none => exact Nat.le_refl _
      | some p => exact List.idxOf_le_length
    rw [weight, List.length_cons, Nat.succ_mul]
    omega

/-- Binding a node to an earlier place than before makes the places smaller. -/
theorem weight_update (hlt : order.idxOf c < (up w).elim order.length order.idxOf) (l : List ν) :
    weight order (Function.update up w (some c)) l ≤ weight order up l ∧
      (w ∈ l → weight order (Function.update up w (some c)) l < weight order up l) := by
  induction l with
  | nil => simp [weight]
  | cons x rest ih =>
    simp only [weight, List.mem_cons]
    by_cases hx : x = w
    · rw [hx, Function.update_self, Option.elim_some]
      exact ⟨by omega, fun _ => by omega⟩
    · rw [Function.update_of_ne hx]
      refine ⟨by omega, fun hw => ?_⟩
      have := ih.2 (hw.resolve_left fun e => hx e.symm)
      omega

/-- A node is bound to the closest common ancestor of its bound predecessors. -/
def Met (preds : ν → List ν) (up : ν → Option ν) (x : ν) : Prop := ∃ c, up x = some c ∧ Meets preds up x c

/-- What visits do to the tree: nothing, at nodes that are bound as they should be, or something that makes places
smaller. -/
def Progress (preds : ν → List ν) (order : List ν) (s s' : DomSweep ν) (visited : List ν) : Prop :=
  s' = s ∧ (∀ x ∈ visited, Met preds s.idom.get? x) ∨
    s'.changed = true ∧ weight order s'.idom.get? order < weight order s.idom.get? order

theorem Progress.trans {s s' s'' : DomSweep ν} {l l' : List ν} (h : Progress preds order s s' l)
    (h' : Progress preds order s' s'' l') : Progress preds order s s'' (l ++ l') := by
  rcases h with ⟨rfl, h⟩ | ⟨hc, hlt⟩
  · refine h'.imp_left fun h' => ⟨h'.1, fun x hx => ?_⟩
    exact (List.mem_append.mp hx).elim (h x) (h'.2 x)
  · rcases h' with ⟨rfl, -⟩ | ⟨hc', hlt'⟩
    · exact Or.inr ⟨hc, hlt⟩
    · exact Or.inr ⟨hc', Nat.lt_trans hlt' hlt⟩

theorem get?_insert_eq_update (t : Table ν ν) (x y : ν) : (t.insert x y).get? = Function.update t.get? x (some y) := by
  funext z
  rw [Table.get?_insert, Function.update_apply]
  simp only [eq_comm]

section Sweep

variable (hg : PredsOf next preds root order)

include hg

/-- One visit. -/
theorem exists_visit {s : DomSweep ν} (h : Settling next preds root order i s.idom.get?)
    (hkeys : (s.idom.entries.map Prod.fst).Nodup) (hw : w ∈ order) (hi : order.idxOf w = i) (hne : w ≠ root) :
    ∃ s', s.visit order preds w = some s' ∧ Settling next preds root order (i + 1) s'.idom.get? ∧
      (s'.idom.entries.map Prod.fst).Nodup ∧ Progress preds order s s' [w] := by
  obtain ⟨t, ht, hlt⟩ := hg.exists_earlier hw hne
  have hbound := h.passed t (mem_of_idxOf_lt hw hlt) (hi ▸ hlt)
  obtain ⟨first, rest, hfilter⟩ := List.exists_cons_of_ne_nil
    (List.ne_nil_of_mem (List.mem_filter.mpr ⟨ht, hbound⟩) : (preds w).filter (fun p => (s.idom.get? p).isSome) ≠ [])
  have hall : ∀ q ∈ first :: rest, (s.idom.get? q).isSome := fun q hq => by
    rw [← hfilter] at hq
    exact (List.mem_filter.mp hq).2
  obtain ⟨c, hc, hcommon⟩ := exists_foldlM_intersect h.toRising hg.head hall
  have hmeets : Meets preds s.idom.get? w c := fun d => by
    rw [hcommon, ← hfilter]
    simp only [List.mem_filter, and_imp]
  have hb : Binding next preds root order i s.idom.get? w c := ⟨h, hg, hw, hi, hne, hmeets⟩
  have hvisit : s.visit order preds w =
      if s.idom.get? w = some c then some s else some ⟨s.idom.insert w c, true⟩ := by
    rw [DomSweep.visit, hfilter]
    simp only [hc, Option.bind_eq_bind, Option.bind_some]
  rw [hvisit]
  split
  · rename_i hsame
    have hid : Function.update s.idom.get? w (some c) = s.idom.get? := by rw [← hsame, Function.update_eq_self]
    refine ⟨s, rfl, hid ▸ hb.settling, hkeys, Or.inl ⟨rfl, ?_⟩⟩
    exact List.forall_mem_singleton.mpr ⟨c, hsame, hmeets⟩
  · rename_i hdiff
    refine ⟨_, rfl, ?_, Table.nodup_put hkeys, Or.inr ⟨rfl, ?_⟩⟩
    · rw [get?_insert_eq_update]
      exact hb.settling
    · rw [get?_insert_eq_update]
      refine (weight_update ?_ order).2 hw
      cases hold : s.idom.get? w with
      | none => exact h.place_lt hb.target.1
      | some p =>
        have habove : Above s.idom.get? c p := h.common hold hne c ((hmeets c).mp .refl)
        refine Nat.lt_of_le_of_ne (h.place_le habove) fun e => hdiff ?_
        rw [hold, (List.idxOf_inj (h.listed hb.target.1)).mp e]

/-- Visits one after another. -/
theorem exists_visits (before rest : List ν) (s : DomSweep ν) (horder : order = before ++ rest) (hbefore : root ∈ before)
    (h : Settling next preds root order before.length s.idom.get?) (hkeys : (s.idom.entries.map Prod.fst).Nodup) :
    ∃ s', rest.foldlM (DomSweep.visit order preds) s = some s' ∧
      Settling next preds root order order.length s'.idom.get? ∧ (s'.idom.entries.map Prod.fst).Nodup ∧
      Progress preds order s s' rest := by
  induction rest generalizing before s with
  | nil =>
    rw [List.append_nil] at horder
    exact ⟨s, rfl, by rwa [horder] at h ⊢, hkeys, Or.inl ⟨rfl, by simp⟩⟩
  | cons w rest ih =>
    have hfresh : w ∉ before := fun hw => by
      have := List.nodup_append.mp (horder ▸ hg.nodup)
      exact this.2.2 w hw w List.mem_cons_self rfl
    have hi : order.idxOf w = before.length := by
      rw [horder, List.idxOf_append_of_notMem hfresh, List.idxOf_cons_self, Nat.add_zero]
    obtain ⟨s₁, hs₁, h₁, hkeys₁, hp₁⟩ := exists_visit hg h hkeys (by simp [horder]) hi fun e => hfresh (e ▸ hbefore)
    obtain ⟨s₂, hs₂, h₂, hkeys₂, hp₂⟩ := ih (before ++ [w]) s₁ (by simp [horder]) (by simp [hbefore])
      (by simpa using h₁) hkeys₁
    exact ⟨s₂, by simpa [hs₁] using hs₂, h₂, hkeys₂, hp₁.trans hp₂⟩

/-- Sweeps come to one that changes nothing. -/
theorem exists_settle {k : Nat} {idom : Table ν ν} (h : Settling next preds root order 1 idom.get?)
    (hkeys : (idom.entries.map Prod.fst).Nodup) (hk : weight order idom.get? order < k) :
    ∃ t, settle order preds k idom = some t ∧ Settling next preds root order order.length t.get? ∧
      (t.entries.map Prod.fst).Nodup ∧ ∀ x ∈ order, x ≠ root → Met preds t.get? x := by
  obtain ⟨rest, horder⟩ := List.head?_eq_some_iff.mp hg.head
  induction k generalizing idom with
  | zero => omega
  | succ k ih =>
    obtain ⟨s, hs, hsettling, hkeys', hp⟩ := exists_visits hg [root] rest { idom } horder (by simp) h hkeys
    have htail : order.tail = rest := by rw [horder, List.tail_cons]
    unfold settle
    rw [htail, hs]
    rcases hp with ⟨rfl, hmet⟩ | ⟨hc, hlt⟩
    · refine ⟨idom, rfl, hsettling, hkeys', fun x hx hne => hmet x ?_⟩
      rw [horder] at hx
      exact (List.mem_cons.mp hx).resolve_left hne
    · obtain ⟨t, ht, hrest⟩ := ih hsettling.restart hkeys' (by simp only at hlt; omega)
      exact ⟨t, by simpa [hc] using ht, hrest⟩

/-- At first only the root is bound. -/
theorem settling_root : Settling next preds root order 1 (Table.empty.insert root root : Table ν ν).get? := by
  have hzero := place_root hg.head
  have honly : ∀ {x p}, (Table.empty.insert root root : Table ν ν).get? x = some p → x = root ∧ p = root := by
    intro x p hx
    simp only [Table.get?_insert, Table.get?_empty] at hx
    split at hx
    · rename_i e
      exact ⟨e.symm, (Option.some.inj hx).symm⟩
    · cases hx
  have hroot : (Table.empty.insert root root : Table ν ν).get? root = some root := by simp [Table.get?_insert]
  have hmem : root ∈ order := List.mem_of_head? hg.head
  have heq : ∀ {x}, x ∈ order → order.idxOf x = 0 → x = root := fun hx e => (List.idxOf_inj hx).mp (e.trans hzero.symm)
  refine ⟨⟨hroot, fun {x} hx => ?_, fun {x p} hx => ?_, fun {x p} hx hne => ?_⟩, fun {x p} hx y hy hle => ?_,
    fun x hx hlt => ?_, fun {x p} hx hne => ?_, fun {x p} hx hne => ?_, fun {x p} hx hne => ?_⟩
  · obtain ⟨p, hp⟩ := Option.isSome_iff_exists.mp hx
    exact (honly hp).1 ▸ hmem
  · rw [(honly hx).2, hroot, Option.isSome_some]
  · exact absurd (honly hx).1 hne
  · rw [(honly hx).1, hzero] at hle
    rw [heq hy (Nat.le_zero.mp hle), hroot, Option.isSome_some]
  · rw [heq hx (by omega), hroot, Option.isSome_some]
  all_goals exact absurd (honly hx).1 hne

end Sweep

/-! ## The tree is that of dominance -/

/-- What is above a node of a settled tree dominates it: on a path that avoids the one no node has it above. -/
theorem doms_of_above (hg : PredsOf next preds root order) (h : Settling next preds root order order.length up)
    (hmet : ∀ x ∈ order, x ≠ root → Met preds up x) (hd : Above up d x) : Doms next root d x := by
  intro hx
  induction hx with
  | refl hne => exact hne (h.eq_root_of_above hd).symm
  | @tail b x hb hs hne ih =>
    have hbm : b ∈ order := (hg.mem b).mpr (hb.mono fun _ _ => trivial)
    have hxm : x ∈ order := (hg.mem x).mpr (.tail (hb.mono fun _ _ => trivial) hs trivial)
    by_cases hroot : x = root
    · subst hroot
      exact hne (h.eq_root_of_above hd).symm
    · obtain ⟨c, hc, hmeets⟩ := hmet x hxm hroot
      have hdc : Above up d c := hd.parent hne.symm hc
      refine ih ((hmeets d).mp hdc b ((hg.preds x hxm hroot b hbm).mpr hs) ?_)
      exact h.passed b hbm (List.idxOf_lt_length_of_mem hbm)

/-- **The sweeps end with the dominator tree.** The nodes listed are bound, each but the root to one listed before it, and
what lies above a node are its dominators. -/
theorem exists_immediateDominators (hg : PredsOf next preds root order) :
    ∃ t, immediateDominators order preds = some t ∧ (t.entries.map Prod.fst).Nodup ∧ Rising order root t.get? ∧
      (∀ x, (t.get? x).isSome ↔ x ∈ order) ∧ ∀ d, ∀ x ∈ order, Above t.get? d x ↔ Doms next root d x := by
  obtain ⟨rest, horder⟩ := List.head?_eq_some_iff.mp hg.head
  obtain ⟨t, ht, h, hkeys, hmet⟩ := exists_settle hg (k := order.length * order.length + 1) (settling_root hg)
    (by simp [Table.insert, Table.put, Table.empty]) (Nat.lt_succ_of_le (weight_le ..))
  have hbound : ∀ x ∈ order, (t.get? x).isSome := fun x hx => h.passed x hx (List.idxOf_lt_length_of_mem hx)
  refine ⟨t, ?_, hkeys, h.toRising, fun x => ⟨h.listed, hbound x⟩, fun d x hx => ⟨doms_of_above hg h hmet, ?_⟩⟩
  · rw [← ht, horder]
    rfl
  · exact h.above_of_doms (hbound x hx)

end SsaFusion
