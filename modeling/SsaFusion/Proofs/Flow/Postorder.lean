import Mathlib.Logic.Function.Iterate
import SsaFusion.Proofs.Flow.Tour

/-!
# Reverse postorder

A depth-first tour can be taken one step at a time, with the way from the start to the current node on a stack and with
each node on it the number of its steps tried so far (`Descent`). It ends, and with what the recursive tour ends with
(`advance_visit`): every node finished took one step for each edge and one to be left.

Every node on the stack leads to those above it. So when a node is done, all that it leads to in one step was met, and is
done already or leads back to it. One step keeps this (`Sound.advance`), hence all do (`Sound.iterate`), and an edge that
goes against the order in which nodes are listed has a path back.
-/

namespace SsaFusion

namespace Tour

variable {ν : Type} [DecidableEq ν] {next : ν → List ν} {univ : List ν} {t : Tour ν} {v : ν} {k : Nat}

theorem visit_of_seen (h : v ∈ t.seen) : t.visit next k v = t := by
  cases k with
  | zero => rfl
  | succ k => simp [visit, h]

theorem unseen_visit_le (huniv : ∀ x ∈ univ, ∀ y ∈ next x, y ∈ univ) (hv : v ∈ univ) (hk : t.unseen univ < k) :
    (t.visit next k v).unseen univ ≤ t.unseen univ := by
  have hgrows : ∃ new, Grows next (fun _ => True) t (t.visit next k v) new ∧ v ∈ (t.visit next k v).seen ∧
      Ordered (fun _ _ => False) [] new :=
    visit_grows huniv (fun _ _ _ _ => trivial) (fun _ _ _ _ h => h.elim) hv trivial (fun _ h => h.elim) (by simp) hk
  obtain ⟨new, h, -⟩ := hgrows
  exact h.unseen_le

end Tour

/-- A depth-first tour under way: what it knows, and the nodes met and not done, the current one first, each with the number
of its steps that were tried. -/
structure Descent (ν : Type) extends Tour ν where
  stack : List (ν × Nat)

namespace Descent

variable {ν : Type} [DecidableEq ν] {next : ν → List ν} {univ : List ν} {d : Descent ν} {t : Tour ν} {stack : List (ν × Nat)} {v w : ν}
  {n : Nat}

/-- A tour that has met its start only. -/
def start {ν : Type} (v : ν) : Descent ν := ⟨⟨[v], []⟩, [(v, 0)]⟩

/-- Tries one step of the current node and goes on to where it leads, unless that was met before. A node with no step left
is done. -/
def advance (next : ν → List ν) (d : Descent ν) : Descent ν :=
  match d.stack with
  | [] => d
  | (v, n) :: below =>
    match (next v)[n]? with
    | some w =>
      if d.seen.contains w then { d with stack := (v, n + 1) :: below }
      else { d with seen := w :: d.seen, stack := (w, 0) :: (v, n + 1) :: below }
    | none => { d with finished := v :: d.finished, stack := below }

theorem advance_over : advance next ⟨t, []⟩ = ⟨t, []⟩ := rfl

theorem advance_skip (hw : (next v)[n]? = some w) (hseen : w ∈ t.seen) :
    advance next ⟨t, (v, n) :: stack⟩ = ⟨t, (v, n + 1) :: stack⟩ := by
  simp [advance, hw, hseen]

theorem advance_enter (hw : (next v)[n]? = some w) (hnew : w ∉ t.seen) :
    advance next ⟨t, (v, n) :: stack⟩ = ⟨{ t with seen := w :: t.seen }, (w, 0) :: (v, n + 1) :: stack⟩ := by
  simp [advance, hw, hnew]

theorem advance_leave (hend : (next v)[n]? = none) :
    advance next ⟨t, (v, n) :: stack⟩ = ⟨{ t with finished := v :: t.finished }, stack⟩ := by
  simp [advance, hend]

/-! ## The tour ends -/

/-- The steps that some nodes take until they are done: one for each edge, and one to leave. -/
def steps {ν : Type} (next : ν → List ν) : (nodes : List ν) → Nat
  | [] => 0
  | v :: nodes => (next v).length + 1 + steps next nodes

omit [DecidableEq ν] in
theorem steps_append (new old : List ν) : steps next (new ++ old) = steps next new + steps next old := by
  induction new with
  | nil => simp [steps]
  | cons v new ih =>
    rw [List.cons_append, steps, steps, ih]
    omega

/-- After some steps one state of a tour has become another, and the nodes done meanwhile are what took the steps. -/
def Takes (next : ν → List ν) (extra : Nat) (d d' : Descent ν) : Prop :=
  ∃ new, d'.finished = new ++ d.finished ∧ (advance next)^[steps next new + extra] d = d'

theorem Takes.trans {d' d'' : Descent ν} {m : Nat} (h : Takes next n d d') (h' : Takes next m d' d'') :
    Takes next (m + n) d d'' := by
  obtain ⟨new, hnew, rfl⟩ := h
  obtain ⟨new', hnew', rfl⟩ := h'
  refine ⟨new' ++ new, by rw [hnew', hnew, List.append_assoc], ?_⟩
  rw [← Function.iterate_add_apply, steps_append]
  congr 1
  omega

theorem Takes.one {d' : Descent ν} (h : advance next d = d') (hd : d'.finished = d.finished) : Takes next 1 d d' :=
  ⟨[], hd, h⟩

section Visit

variable (huniv : ∀ x ∈ univ, ∀ y ∈ next x, y ∈ univ)

include huniv

/-- The steps of a node that are left are tried one after another, and each node met on the way is done before the next. -/
theorem advance_foldl {k : Nat} (hvisit : ∀ {t : Tour ν} {w : ν} (stack : List (ν × Nat)), w ∈ univ → w ∉ t.seen →
      t.unseen univ < k →
      Takes next 0 ⟨{ t with seen := w :: t.seen }, (w, 0) :: stack⟩ ⟨t.visit next k w, stack⟩)
    (stack : List (ν × Nat)) (ws : List ν) (t : Tour ν) (hws : (next v).drop n = ws) (hin : ∀ w ∈ ws, w ∈ univ)
    (hk : t.unseen univ < k) :
    Takes next ws.length ⟨t, (v, n) :: stack⟩ ⟨ws.foldl (Tour.visit next k) t, (v, n + ws.length) :: stack⟩ := by
  induction ws generalizing t n with
  | nil => exact ⟨[], rfl, rfl⟩
  | cons w rest ih =>
    have hw : (next v)[n]? = some w := by
      rw [← List.head?_drop, hws]
      rfl
    have hrest : (next v).drop (n + 1) = rest := by
      rw [← List.drop_drop, hws]
      rfl
    rw [List.forall_mem_cons] at hin
    rw [List.foldl_cons, List.length_cons, Nat.add_comm rest.length, ← Nat.add_assoc]
    -- a node met before is passed over; another one is entered, and left with the stack as it was
    by_cases hseen : w ∈ t.seen
    · have hskip : Takes next 1 ⟨t, (v, n) :: stack⟩ ⟨t, (v, n + 1) :: stack⟩ := .one (advance_skip hw hseen) rfl
      rw [Tour.visit_of_seen hseen, Nat.add_comm 1]
      exact hskip.trans (ih t hrest hin.2 hk)
    · have henter : Takes next 1 ⟨t, (v, n) :: stack⟩ ⟨{ t with seen := w :: t.seen }, (w, 0) :: (v, n + 1) :: stack⟩ :=
        .one (advance_enter hw hseen) rfl
      have hle := Tour.unseen_visit_le huniv hin.1 hk
      rw [Nat.add_comm 1]
      exact (henter.trans (hvisit _ hin.1 hseen hk)).trans (ih _ hrest hin.2 (by omega))

/-- **A tour taken one step at a time ends like the recursive one.** -/
theorem advance_visit {k : Nat} (stack : List (ν × Nat)) (hv : v ∈ univ) (hnew : v ∉ t.seen) (hk : t.unseen univ < k) :
    Takes next 0 ⟨{ t with seen := v :: t.seen }, (v, 0) :: stack⟩ ⟨t.visit next k v, stack⟩ := by
  induction k generalizing t v stack with
  | zero => omega
  | succ k ih =>
    have hlt := Tour.unseen_cons_lt hv hnew
    obtain ⟨new, hfinished, hrun⟩ := advance_foldl huniv ih stack (next v) { t with seen := v :: t.seen }
      List.drop_zero (huniv v hv) (by omega)
    have hvisit : t.visit next (k + 1) v =
        { (next v).foldl (Tour.visit next k) { t with seen := v :: t.seen } with
          finished := v :: ((next v).foldl (Tour.visit next k) { t with seen := v :: t.seen }).finished } := by
      simp [Tour.visit, hnew]
    refine ⟨v :: new, by rw [hvisit]; exact congrArg (v :: ·) hfinished, ?_⟩
    have hsteps : steps next (v :: new) + 0 = (steps next new + (next v).length) + 1 := by
      rw [steps]
      omega
    rw [hsteps, Function.iterate_succ_apply', hrun, advance_leave (by simp), hvisit]

/-- From a root a tour taken one step at a time ends with what the whole tour finishes. -/
theorem advance_root {k : Nat} (hv : v ∈ univ) (hk : univ.length < k) :
    (advance next)^[steps next (Tour.visit next k {} v).finished] (start v) = ⟨Tour.visit next k {} v, []⟩ := by
  have hdepth : Tour.unseen univ {} < k := Nat.lt_of_le_of_lt (List.length_filter_le _ _) hk
  obtain ⟨new, hnew, hrun⟩ := advance_visit huniv [] hv (t := {}) (by simp) hdepth
  obtain rfl : (Tour.visit next k {} v).finished = new := hnew.trans (List.append_nil _)
  exact hrun

end Visit

/-! ## Edges against the order -/

/-- The nodes met and not done. -/
def pending {ν : Type} (d : Descent ν) : List ν := d.stack.map Prod.fst

/-- What a tour keeps to: the nodes on the stack lead to those above them, and a step from a node that is done leads to a
node met, which was done before or leads back. -/
structure Sound {ν : Type} (next : ν → List ν) (d : Descent ν) : Prop where
  way : d.pending.Pairwise fun b a => Reaches next (fun _ => True) a b
  tried : ∀ p ∈ d.stack, ∀ y ∈ (next p.1).take p.2, y ∈ d.seen
  closed : ∀ u ∈ d.finished, ∀ y ∈ next u, y ∈ d.seen
  back : ∀ u ∈ d.finished, ∀ v ∈ d.pending, v ∈ next u → Reaches next (fun _ => True) v u
  order : d.finished.Pairwise fun v u => v ∈ next u → Reaches next (fun _ => True) v u

namespace Sound

section Steps

omit [DecidableEq ν]

theorem start (v : ν) : Sound next (Descent.start v) :=
  ⟨.cons (by simp) .nil, by simp [Descent.start], by simp [Descent.start], by simp [Descent.start], .nil⟩

theorem skip (h : Sound next ⟨t, (v, n) :: stack⟩) (hw : (next v)[n]? = some w) (hseen : w ∈ t.seen) :
    Sound next ⟨t, (v, n + 1) :: stack⟩ := by
  have htried := List.forall_mem_cons.mp h.tried
  refine ⟨h.way, List.forall_mem_cons.mpr ⟨fun y hy => ?_, htried.2⟩, h.closed, h.back, h.order⟩
  rw [List.take_add_one, hw] at hy
  rcases List.mem_append.mp hy with hy | hy
  · exact htried.1 y hy
  · rw [List.mem_singleton.mp hy]
    exact hseen

theorem enter (h : Sound next ⟨t, (v, n) :: stack⟩) (hw : (next v)[n]? = some w) (hnew : w ∉ t.seen) :
    Sound next ⟨{ t with seen := w :: t.seen }, (w, 0) :: (v, n + 1) :: stack⟩ := by
  have hmet : Sound next ⟨{ t with seen := w :: t.seen }, (v, n) :: stack⟩ :=
    ⟨h.way, fun p hp y hy => List.mem_cons_of_mem _ (h.tried p hp y hy),
      fun u hu y hy => List.mem_cons_of_mem _ (h.closed u hu y hy), h.back, h.order⟩
  have hskip := hmet.skip hw List.mem_cons_self
  have hedge : w ∈ next v := List.mem_of_getElem? hw
  refine ⟨List.pairwise_cons.mpr ⟨fun a ha => ?_, h.way⟩, ?_, hskip.closed, fun u hu x hx hs => ?_, h.order⟩
  · rcases List.mem_cons.mp ha with rfl | ha
    · exact .tail (.refl trivial) hedge trivial
    · exact .tail (List.rel_of_pairwise_cons h.way ha) hedge trivial
  · exact List.forall_mem_cons.mpr ⟨by simp, hskip.tried⟩
  · rcases List.mem_cons.mp hx with rfl | hx
    -- all that a node done leads to was met
    · exact absurd (h.closed u hu _ hs) hnew
    · exact h.back u hu x hx hs

theorem leave (h : Sound next ⟨t, (v, n) :: stack⟩) (hend : (next v)[n]? = none) :
    Sound next ⟨{ t with finished := v :: t.finished }, stack⟩ := by
  have htried := List.forall_mem_cons.mp h.tried
  obtain ⟨hbelow, hway⟩ := List.pairwise_cons.mp h.way
  refine ⟨hway, htried.2, List.forall_mem_cons.mpr ⟨fun y hy => ?_, h.closed⟩,
    List.forall_mem_cons.mpr ⟨fun a ha _ => hbelow a ha, fun u hu a ha => h.back u hu a (List.mem_cons_of_mem _ ha)⟩,
    List.pairwise_cons.mpr ⟨fun u hu => h.back u hu v List.mem_cons_self, h.order⟩⟩
  exact htried.1 y (by rwa [List.take_of_length_le (List.getElem?_eq_none_iff.mp hend)])

end Steps

/-- One step keeps it. -/
theorem advance (h : Sound next d) : Sound next (d.advance next) := by
  obtain ⟨t, stack⟩ := d
  cases stack with
  | nil => exact h
  | cons top below =>
    obtain ⟨v, n⟩ := top
    cases hw : (next v)[n]? with
    | none =>
      rw [advance_leave hw]
      exact h.leave hw
    | some w =>
      by_cases hseen : w ∈ t.seen
      · rw [advance_skip hw hseen]
        exact h.skip hw hseen
      · rw [advance_enter hw hseen]
        exact h.enter hw hseen

/-- Every step of a tour keeps it. -/
theorem iterate (v : ν) (n : Nat) : Sound next ((Descent.advance next)^[n] (Descent.start v)) := by
  induction n with
  | zero => exact start v
  | succ n ih =>
    rw [Function.iterate_succ_apply']
    exact ih.advance

end Sound

end Descent

namespace Func

variable {f : Func} {u v : BlockId}

/-- The tour from the entry, one step at a time, ends with the list in reverse postorder. -/
theorem advance_entry (f : Func) : ∃ t : Tour BlockId, t.finished = f.reversePostorder ∧
    (Descent.advance f.successors)^[Descent.steps f.successors f.reversePostorder] (Descent.start f.entry) = ⟨t, []⟩ :=
  ⟨_, rfl, Descent.advance_root places_closed entry_mem_places (Nat.lt_succ_self _)⟩

/-- An edge that goes against the order has a path back. -/
theorem reversePostorder_retreat (f : Func) : f.reversePostorder.Pairwise fun v u =>
    v ∈ f.successors u → Reaches f.successors (fun _ => True) v u := by
  obtain ⟨t, ht, hrun⟩ := f.advance_entry
  have hsound : Descent.Sound f.successors ⟨t, []⟩ := hrun ▸ .iterate f.entry _
  exact ht ▸ hsound.order

theorem head?_reversePostorder (f : Func) : f.reversePostorder.head? = some f.entry := by
  simp [reversePostorder, Tour.visit]

theorem path_of_listed_before (hu : u ∈ f.reversePostorder) (hs : v ∈ f.successors u)
    (hle : ¬f.reversePostorder.idxOf u < f.reversePostorder.idxOf v) : ∃ p, Path f.successors v p u := by
  by_cases e : u = v
  · exact e ▸ ⟨[u], .single u⟩
  · have hv : v ∈ f.reversePostorder := mem_reversePostorder.mpr ((mem_reversePostorder.mp hu).step hs)
    have hlt : f.reversePostorder.idxOf v < f.reversePostorder.idxOf u := by
      have hne : f.reversePostorder.idxOf u ≠ f.reversePostorder.idxOf v := fun h => e ((List.idxOf_inj hu).mp h)
      omega
    have hback := List.pairwise_iff_getElem.mp f.reversePostorder_retreat _ _ (List.idxOf_lt_length_of_mem hv)
      (List.idxOf_lt_length_of_mem hu) hlt
    rw [List.getElem_idxOf, List.getElem_idxOf] at hback
    obtain ⟨p, hp, -⟩ := reaches_iff_path.mp (hback hs)
    exact ⟨p, hp⟩

/-- **Reverse postorder is a correct traversal.** The tour from the entry, taken one step at a time, comes to its end and
has then listed the order. The order starts with the entry and lists each live place once, which are also those that the
search finds. An edge to a place that is not listed after its source has a path back; so if no edge has one, all edges go
forward. -/
theorem reversePostorder_correct (f : Func) :
    (∃ t : Tour BlockId, t.finished = f.reversePostorder ∧ ∀ n, Descent.steps f.successors f.reversePostorder ≤ n →
      (Descent.advance f.successors)^[n] (Descent.start f.entry) = ⟨t, []⟩) ∧
    f.reversePostorder.head? = some f.entry ∧
    f.reversePostorder.Nodup ∧
    (∀ b, b ∈ f.reversePostorder ↔ ∃ p, Path f.successors f.entry p b) ∧
    (∀ b, b ∈ f.reversePostorder ↔ b ∈ f.reachable) ∧
    (∀ u ∈ f.reversePostorder, ∀ v ∈ f.successors u, ¬f.reversePostorder.idxOf u < f.reversePostorder.idxOf v →
      ∃ p, Path f.successors v p u) ∧
    ((∀ u ∈ f.reversePostorder, ∀ v ∈ f.successors u, ¬∃ p, Path f.successors v p u) →
      ∀ u ∈ f.reversePostorder, ∀ v ∈ f.successors u, f.reversePostorder.idxOf u < f.reversePostorder.idxOf v) := by
  refine ⟨?_, f.head?_reversePostorder, nodup_reversePostorder, fun b => mem_reversePostorder,
    fun b => mem_reversePostorder.trans mem_reachable.symm, fun u hu v hv => path_of_listed_before hu hv,
    fun hacyclic u hu v hv => ?_⟩
  · obtain ⟨t, ht, hrun⟩ := f.advance_entry
    refine ⟨t, ht, fun n hn => ?_⟩
    obtain ⟨k, rfl⟩ := Nat.exists_eq_add_of_le' hn
    rw [Function.iterate_add_apply, hrun]
    exact Function.iterate_fixed Descent.advance_over k
  · by_contra hle
    exact hacyclic u hu v hv (path_of_listed_before hu hv hle)

end Func

end SsaFusion
