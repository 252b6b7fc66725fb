import SsaFusion.Proofs.Flow.Dominance

/-!
# Depth-first tours

A tour that may go deep enough finishes every node it meets (`Tour.visit_grows`): what it adds is new, is added once, and
leads to nothing unseen. It lists what its root reaches, each node once and after a node that leads to it
(`Tour.visit_listed`); for the entry of a function these are the live places (`mem_reversePostorder`). A node is finished
before the nodes that are being visited, and all its dominators are among those, so that dominators come first in reverse
postorder (`dominators_first`).
-/

namespace SsaFusion

namespace Tour

variable {ν : Type} {next : ν → List ν} {ok : ν → Prop} {before : ν → ν → Prop} {univ above : List ν} {t t' t'' : Tour ν}
  {new new' : List ν}

/-- What a tour finished between two moments: nodes not met before, each once, whose steps all were met. -/
structure Grows (next : ν → List ν) (ok : ν → Prop) (t t' : Tour ν) (new : List ν) : Prop where
  finished : t'.finished = new ++ t.finished
  seen : ∀ x, x ∈ t'.seen ↔ x ∈ new ∨ x ∈ t.seen
  nodup : new.Nodup
  fresh : ∀ x ∈ new, x ∉ t.seen
  closed : ∀ x ∈ new, ∀ y ∈ next x, y ∈ t'.seen
  good : ∀ x ∈ new, ok x

namespace Grows

theorem refl (t : Tour ν) : Grows next ok t t [] :=
  ⟨rfl, by simp, .nil, by simp, by simp, by simp⟩

theorem trans (h : Grows next ok t t' new) (h' : Grows next ok t' t'' new') :
    Grows next ok t t'' (new' ++ new) := by
  refine ⟨by rw [h'.finished, h.finished, List.append_assoc], fun x => ?_, ?_, ?_, ?_, ?_⟩
  · rw [h'.seen, h.seen, List.mem_append, or_assoc]
  · refine List.nodup_append.mpr ⟨h'.nodup, h.nodup, ?_⟩
    rintro x hx y hy rfl
    exact h'.fresh x hx ((h.seen x).mpr (Or.inl hy))
  · intro x hx ht
    rcases List.mem_append.mp hx with hx | hx
    · exact h'.fresh x hx ((h.seen x).mpr (Or.inr ht))
    · exact h.fresh x hx ht
  · intro x hx y hy
    rcases List.mem_append.mp hx with hx | hx
    · exact h'.closed x hx y hy
    · exact (h'.seen y).mpr (Or.inr (h.closed x hx y hy))
  · intro x hx
    rcases List.mem_append.mp hx with hx | hx
    · exact h'.good x hx
    · exact h.good x hx

end Grows

/-- A relation that is between nodes only in the order of a list, or from the nodes above to its nodes. -/
structure Ordered (before : ν → ν → Prop) (above new : List ν) : Prop where
  within : ∀ x ∈ new, ∀ d, before d x → d ∈ above ∨ d ∈ new
  order : new.Pairwise fun x y => ¬before y x

namespace Ordered

theorem nil : Ordered before above [] := ⟨by simp, .nil⟩

/-- What is finished first comes last, and nothing before what follows is among it. -/
theorem append (h : Ordered before above new) (h' : Ordered before above new') (hg : Grows next ok t t' new)
    (hg' : Grows next ok t' t'' new') (habove : ∀ d ∈ above, d ∈ t.seen) : Ordered before above (new' ++ new) := by
  refine ⟨fun x hx d hd => ?_, List.pairwise_append.mpr ⟨h'.order, h.order, fun x hx y hy hd => ?_⟩⟩
  · rw [List.mem_append]
    rcases List.mem_append.mp hx with hx | hx
    · exact (h'.within x hx d hd).imp_right Or.inl
    · exact (h.within x hx d hd).imp_right Or.inr
  · rcases h'.within x hx y hd with hd | hd
    · exact hg.fresh y hy (habove y hd)
    · exact hg'.fresh y hd ((hg.seen y).mpr (Or.inl hy))

theorem cons {v : ν} (h : Ordered before (v :: above) new) (hfresh : ∀ x ∈ new, x ∉ v :: above)
    (hv : ∀ d, before d v → d ∈ v :: above) : Ordered before above (v :: new) := by
  refine ⟨fun x hx d hd => ?_, List.pairwise_cons.mpr ⟨fun y hy hd => hfresh y hy (hv y hd), h.order⟩⟩
  have : d ∈ v :: above ∨ d ∈ new := by
    rcases List.mem_cons.mp hx with rfl | hx
    · exact Or.inl (hv d hd)
    · exact h.within x hx d hd
  simp only [List.mem_cons] at this ⊢
  tauto

end Ordered

variable [DecidableEq ν]

/-- The number of nodes of a universe that a tour has not met. -/
def unseen (univ : List ν) (t : Tour ν) : Nat := (univ.filter (!t.seen.contains ·)).length

theorem Grows.unseen_le (h : Grows next ok t t' new) : unseen univ t' ≤ unseen univ t := by
  refine (List.monotone_filter_right univ fun x hx => ?_).length_le
  have hx : x ∉ t'.seen := by simpa using hx
  have : x ∉ t.seen := fun ht => hx ((h.seen x).mpr (Or.inr ht))
  simpa using this

theorem unseen_cons_lt {v : ν} (hv : v ∈ univ) (hs : v ∉ t.seen) :
    unseen univ { t with seen := v :: t.seen } < unseen univ t := by
  have hsplit : univ.filter (!(v :: t.seen).contains ·) = (univ.filter (!t.seen.contains ·)).filter (· != v) := by
    rw [List.filter_filter]
    refine List.filter_congr fun x _ => ?_
    by_cases e : x = v <;> simp [e]
  unfold unseen
  rw [hsplit]
  exact List.length_filter_lt_length_iff_exists.mpr ⟨v, by simpa using ⟨hv, hs⟩, by simp⟩

/-- Visits one after another grow a tour, in order, if each does. -/
theorem foldl_grows {visits : Tour ν → ν → Tour ν} {k : Nat}
    (hvisit : ∀ (t : Tour ν) (v : ν), v ∈ univ → ok v → (∀ d, before d v → d ∈ v :: above) → (∀ d ∈ above, d ∈ t.seen) →
      unseen univ t < k → ∃ new, Grows next ok t (visits t v) new ∧ v ∈ (visits t v).seen ∧ Ordered before above new)
    (vs : List ν) (t : Tour ν) (hvs : ∀ v ∈ vs, v ∈ univ ∧ ok v ∧ ∀ d, before d v → d ∈ v :: above)
    (habove : ∀ d ∈ above, d ∈ t.seen) (hk : unseen univ t < k) :
    ∃ new, Grows next ok t (vs.foldl visits t) new ∧ (∀ v ∈ vs, v ∈ (vs.foldl visits t).seen) ∧
      Ordered before above new := by
  induction vs generalizing t with
  | nil => exact ⟨[], .refl t, by simp, .nil⟩
  | cons w rest ih =>
    rw [List.forall_mem_cons] at hvs
    obtain ⟨n₁, h₁, hw, ho₁⟩ := hvisit t w hvs.1.1 hvs.1.2.1 hvs.1.2.2 habove hk
    obtain ⟨n₂, h₂, hrest, ho₂⟩ := ih _ hvs.2 (fun d hd => (h₁.seen d).mpr (Or.inr (habove d hd)))
      (Nat.lt_of_le_of_lt h₁.unseen_le hk)
    refine ⟨n₂ ++ n₁, h₁.trans h₂, List.forall_mem_cons.mpr ⟨?_, hrest⟩, ho₁.append ho₂ h₁ h₂ habove⟩
    exact (h₂.seen w).mpr (Or.inr hw)

section Visit

variable (huniv : ∀ x ∈ univ, ∀ y ∈ next x, y ∈ univ) (hok : ∀ x, ok x → ∀ y ∈ next x, ok y)
  (hbefore : ∀ x y d, y ∈ next x → before d y → d = y ∨ before d x)

include huniv hok hbefore

/-- A tour whose depth exceeds the number of nodes not met yet finishes all that a node leads to. What comes before the
node is above it, on the way that the tour took. -/
theorem visit_grows {k : Nat} {v : ν} (hv : v ∈ univ) (hvok : ok v) (hvb : ∀ d, before d v → d ∈ v :: above)
    (habove : ∀ d ∈ above, d ∈ t.seen) (hk : unseen univ t < k) :
    ∃ new, Grows next ok t (visit next k t v) new ∧ v ∈ (visit next k t v).seen ∧ Ordered before above new := by
  induction k generalizing t v above with
  | zero => omega
  | succ k ih =>
    unfold visit
    split
    · rename_i hs
      exact ⟨[], .refl t, by simpa using hs, .nil⟩
    · rename_i hs
      have hs : v ∉ t.seen := by simpa using hs
      have hlt := unseen_cons_lt hv hs
      have hbelow : ∀ d ∈ v :: above, d ∈ v :: t.seen := fun d hd => by
        simp only [List.mem_cons] at hd ⊢
        exact hd.imp_right (habove d)
      have hnb : ∀ y ∈ next v, ∀ d, before d y → d ∈ y :: v :: above := fun y hy d hd => by
        rcases hbefore v y d hy hd with rfl | hd
        · exact List.mem_cons_self ..
        · exact List.mem_cons_of_mem _ (hvb d hd)
      obtain ⟨new, h, hnext, ho⟩ := foldl_grows (fun t v => ih) (next v) { t with seen := v :: t.seen }
        (fun y hy => ⟨huniv v hv y hy, hok v hvok y hy, hnb y hy⟩) hbelow (by omega)
      refine ⟨v :: new, ⟨?_, fun x => ?_, ?_, ?_, ?_, ?_⟩, ?_, ho.cons (fun x hx hd => h.fresh x hx (hbelow x hd)) hvb⟩
      · exact congrArg (v :: ·) h.finished
      · rw [h.seen]
        simp only [List.mem_cons]
        exact ⟨fun h => by tauto, fun h => by tauto⟩
      · exact List.nodup_cons.mpr ⟨fun hn => h.fresh v hn (List.mem_cons_self ..), h.nodup⟩
      · refine List.forall_mem_cons.mpr ⟨hs, fun x hx ht => h.fresh x hx (List.mem_cons_of_mem _ ht)⟩
      · exact List.forall_mem_cons.mpr ⟨hnext, h.closed⟩
      · exact List.forall_mem_cons.mpr ⟨hvok, h.good⟩
      · exact (h.seen v).mpr (Or.inr (List.mem_cons_self ..))

end Visit

/-! ## How nodes are met -/

/-- Every node of a list is a start or a step after a node that comes before it in the list. -/
def Entered (next : ν → List ν) (starts new : List ν) : Prop :=
  ∀ x ∈ new, x ∈ starts ∨ ∃ u, [u, x].Sublist new ∧ x ∈ next u

omit [DecidableEq ν] in
theorem Entered.append {starts starts' : List ν} (h : Entered next starts new) (h' : Entered next starts' new') :
    Entered next (starts ++ starts') (new' ++ new) := by
  intro x hx
  rw [List.mem_append] at hx ⊢
  rcases hx with hx | hx
  · refine (h' x hx).imp Or.inr fun hu => ?_
    obtain ⟨u, hsub, hs⟩ := hu
    exact ⟨u, hsub.trans (List.sublist_append_left ..), hs⟩
  · refine (h x hx).imp Or.inl fun hu => ?_
    obtain ⟨u, hsub, hs⟩ := hu
    exact ⟨u, hsub.trans (List.sublist_append_right ..), hs⟩

/-- A tour meets a node by a step from a node that it finishes later. -/
theorem visit_entered (next : ν → List ν) (k : Nat) (t : Tour ν) (v : ν) :
    ∃ new, (visit next k t v).finished = new ++ t.finished ∧ Entered next [v] new := by
  induction k generalizing t v with
  | zero => exact ⟨[], rfl, nofun⟩
  | succ k ih =>
    have hfold : ∀ (vs : List ν) (t : Tour ν),
        ∃ new, (vs.foldl (visit next k) t).finished = new ++ t.finished ∧ Entered next vs new := by
      intro vs
      induction vs with
      | nil => exact fun t => ⟨[], rfl, nofun⟩
      | cons w rest ihs =>
        intro t
        obtain ⟨n₁, h₁, he₁⟩ := ih t w
        obtain ⟨n₂, h₂, he₂⟩ := ihs (visit next k t w)
        exact ⟨n₂ ++ n₁, by rw [List.foldl_cons, h₂, h₁, List.append_assoc], he₁.append he₂⟩
    unfold visit
    split
    · exact ⟨[], rfl, nofun⟩
    · obtain ⟨new, h, he⟩ := hfold (next v) { t with seen := v :: t.seen }
      refine ⟨v :: new, congrArg (v :: ·) h, List.forall_mem_cons.mpr ⟨Or.inl (by simp), fun x hx => Or.inr ?_⟩⟩
      rcases he x hx with hs | ⟨u, hsub, hs⟩
      · exact ⟨v, (List.singleton_sublist.mpr hx).cons_cons v, hs⟩
      · exact ⟨u, hsub.cons v, hs⟩

end Tour

/-! ## Whole tours -/

/-- A list of what a root reaches, the root first, in which every other node is a step after a node that comes before
it. -/
structure Listed (next : ν → List ν) (root : ν) (order : List ν) : Prop where
  head : order.head? = some root
  nodup : order.Nodup
  mem : ∀ x, x ∈ order ↔ Reaches next (fun _ => True) root x
  entered : ∀ x ∈ order, x ≠ root → ∃ u, [u, x].Sublist order ∧ x ∈ next u

section Whole

variable {ν : Type} [DecidableEq ν] {next : ν → List ν} {univ : List ν} {root : ν} {k : Nat}
  (huniv : ∀ x ∈ univ, ∀ y ∈ next x, y ∈ univ) (hroot : root ∈ univ) (hk : univ.length < k)

include huniv hroot hk

/-- A tour from a root finishes all that the root reaches, dominators last. -/
theorem Tour.visit_root_grows : root ∈ (Tour.visit next k {} root).seen ∧
    Tour.Grows next (Reaches next (fun _ => True) root) {} (Tour.visit next k {} root)
      (Tour.visit next k {} root).finished ∧
    Tour.Ordered (Doms next root) [] (Tour.visit next k {} root).finished := by
  have hdepth : Tour.unseen univ {} < k := Nat.lt_of_le_of_lt (List.length_filter_le _ _) hk
  have hstep : ∀ a b d, b ∈ next a → Doms next root d b → d = b ∨ Doms next root d a := fun a b d hs hd =>
    (eq_or_ne d b).imp_right fun hne => hd.of_step hne hs
  have honly : ∀ d, Doms next root d root → d ∈ [root] := fun d hd => List.mem_singleton.mpr hd.eq_root
  have hreach : ∀ x, Reaches next (fun _ => True) root x → ∀ y ∈ next x, Reaches next (fun _ => True) root y :=
    fun x hx y hy => hx.tail hy trivial
  obtain ⟨new, h, hseen, ho⟩ := Tour.visit_grows huniv hreach hstep hroot (.refl trivial) honly nofun hdepth
  have hnew : (Tour.visit next k {} root).finished = new := by rw [h.finished, List.append_nil]
  exact ⟨hseen, hnew ▸ h, hnew ▸ ho⟩

/-- A tour lists what its root reaches. -/
theorem Tour.visit_listed : Listed next root (Tour.visit next k {} root).finished := by
  obtain ⟨hseen, h, _⟩ := Tour.visit_root_grows huniv hroot hk
  have hmet : ∀ x, x ∈ (Tour.visit next k {} root).seen ↔ x ∈ (Tour.visit next k {} root).finished := fun x => by
    simpa using h.seen x
  refine ⟨?_, h.nodup, fun x => ⟨h.good x, fun hx => ?_⟩, fun x hx hne => ?_⟩
  · obtain ⟨k, rfl⟩ := Nat.exists_eq_add_one_of_ne_zero (Nat.ne_zero_of_lt hk)
    simp [Tour.visit]
  · induction hx with
    | refl _ => exact (hmet _).mp hseen
    | tail _ hs _ ih => exact (hmet _).mp (h.closed _ ih _ hs)
  · obtain ⟨new, hnew, he⟩ := Tour.visit_entered next k {} root
    obtain rfl : (Tour.visit next k {} root).finished = new := hnew.trans (List.append_nil _)
    exact (he x hx).resolve_left fun hx => hne (List.mem_singleton.mp hx)

end Whole

namespace Func

variable {f : Func} {b : BlockId}

theorem places_closed : ∀ x ∈ f.places, ∀ y ∈ f.successors x, y ∈ f.places :=
  fun x _ _ hy => mem_places.mpr (Or.inr (mem_edgeEnds.mpr (Or.inr ⟨x, hy⟩)))

theorem entry_mem_places : f.entry ∈ f.places := mem_places.mpr (Or.inl rfl)

theorem reversePostorder_listed (f : Func) : Listed f.successors f.entry f.reversePostorder :=
  Tour.visit_listed places_closed entry_mem_places (Nat.lt_succ_self _)

/-- The tour lists the live places. -/
theorem mem_reversePostorder : b ∈ f.reversePostorder ↔ f.Live b := by
  rw [live_iff_reaches]
  exact f.reversePostorder_listed.mem b

theorem nodup_reversePostorder : f.reversePostorder.Nodup := f.reversePostorder_listed.nodup

/-- **Dominators come first in reverse postorder.** -/
theorem dominators_first : f.reversePostorder.Pairwise fun a b => ¬f.Dominates b a := by
  obtain ⟨_, _, ho⟩ := Tour.visit_root_grows (k := f.places.length + 1) places_closed entry_mem_places (Nat.lt_succ_self _)
  simp only [dominates_iff_doms]
  exact ho.order

theorem mem_livePredecessors_order {a : BlockId} :
    a ∈ f.livePredecessors f.reversePostorder b ↔ b ∈ f.successors a ∧ f.Live a := by
  rw [mem_livePredecessors, mem_reversePostorder]

end Func

end SsaFusion
