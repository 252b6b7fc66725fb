import SsaFusion.Fusion.Splice
import SsaFusion.Proofs.Flow.Graph
import SsaFusion.Proofs.IR.Sites

/-!
# Edits of functions

What each edit of the surgery does to the two parts of every block, its phis and its code (`parts`), and to its terminator
(`term?`). Moved code starts behind the phis of the block that takes it, and moved phis stay in front of its code, so each
edit acts on one of the parts.
-/

namespace SsaFusion

/-! ## Blocks -/

namespace Block

/-- The phis of a block and its code. -/
def parts (b : Block) : List Instr × List Instr := (b.phis, b.body)

variable (b : Block) {is js ps : List Instr}

theorem takeWhile_body : b.body.takeWhile Instr.isPhi = [] := by
  unfold body
  induction b.instrs with
  | nil => rfl
  | cons i rest ih =>
    rw [List.dropWhile_cons]
    split
    · exact ih
    · rename_i h
      rw [List.takeWhile_cons, if_neg h]

theorem takeWhile_append_body (h : is.takeWhile Instr.isPhi = []) (h' : js.takeWhile Instr.isPhi = []) :
    (is ++ js).takeWhile Instr.isPhi = [] := by
  cases is with
  | nil => exact h'
  | cons i rest =>
    rw [List.takeWhile_cons] at h
    split at h
    · cases h
    · rename_i hi
      rw [List.cons_append, List.takeWhile_cons, if_neg hi]

/-- Phis in front of code that starts with no phi. -/
theorem parts_of_append (hb : b.instrs = ps ++ is) (hps : ∀ i ∈ ps, i.isPhi = true)
    (his : is.takeWhile Instr.isPhi = []) : b.parts = (ps, is) := by
  have hdrop : is.dropWhile Instr.isPhi = is := by
    have h := List.takeWhile_append_dropWhile (p := Instr.isPhi) (l := is)
    rwa [his, List.nil_append] at h
  unfold parts phis body
  rw [hb, List.takeWhile_append_of_pos hps, List.dropWhile_append_of_pos hps, his, hdrop, List.append_nil]

theorem parts_append (h : is.takeWhile Instr.isPhi = []) : (b.append is).parts = (b.phis, b.body ++ is) := by
  refine parts_of_append _ ?_ (fun _ => isPhi_of_mem_phis) (takeWhile_append_body b.takeWhile_body h)
  rw [append, ← List.append_assoc, phis_append_body]

theorem parts_prepend (hps : ∀ i ∈ ps, i.isPhi = true) : (b.prepend ps).parts = (ps ++ b.phis, b.body) := by
  refine parts_of_append _ ?_ (fun i hi => ?_) b.takeWhile_body
  · rw [prepend, List.append_assoc, phis_append_body]
  · rcases List.mem_append.mp hi with h | h
    · exact hps i h
    · exact isPhi_of_mem_phis h

theorem parts_pushPhi {i : Instr} (hi : i.isPhi = true) : (b.pushPhi i).parts = (b.phis ++ [i], b.body) := by
  refine parts_of_append _ (by simp [pushPhi]) (fun j hj => ?_) b.takeWhile_body
  rcases List.mem_append.mp hj with h | h
  · exact isPhi_of_mem_phis h
  · rwa [List.mem_singleton.mp h]

theorem parts_pushPhis (hps : ∀ i ∈ ps, i.isPhi = true) :
    (ps.foldl pushPhi b).parts = (b.phis ++ ps, b.body) ∧ (ps.foldl pushPhi b).term = b.term := by
  induction ps generalizing b with
  | nil => simp [parts]
  | cons i rest ih =>
    obtain ⟨h₁, h₂⟩ := Prod.mk.inj (b.parts_pushPhi (hps i List.mem_cons_self))
    obtain ⟨ih₁, ih₂⟩ := ih (b.pushPhi i) fun j hj => hps j (List.mem_cons_of_mem _ hj)
    rw [List.foldl_cons, ih₁, ih₂, h₁, h₂, List.append_assoc]
    exact ⟨rfl, rfl⟩

theorem parts_dropBody : b.dropBody.parts = (b.phis, []) :=
  parts_of_append _ (List.append_nil _).symm (fun _ => isPhi_of_mem_phis) rfl

theorem parts_dropPhis : b.dropPhis.parts = ([], b.body) :=
  parts_of_append _ rfl (by simp) b.takeWhile_body

theorem parts_filter {q : Instr → Bool} (hb : ∀ i ∈ b.body, i.isPhi = false) :
    { b with instrs := b.instrs.filter q }.parts = (b.phis.filter q, b.body.filter q) := by
  refine parts_of_append _ ?_ (fun i hi => isPhi_of_mem_phis (List.mem_filter.mp hi).1) ?_
  · rw [← List.filter_append, phis_append_body]
  · rw [List.takeWhile_eq_nil_iff]
    intro h
    have hfalse := hb _ (List.mem_filter.mp (List.get_mem (b.body.filter q) ⟨0, h⟩)).1
    rw [hfalse]
    exact Bool.false_ne_true

end Block

namespace Terminator

variable {t : Terminator} {c old new : BlockId}

/-- Where a terminator goes once a target is replaced. -/
theorem mem_targets_retarget :
    c ∈ (t.retarget old new).targets ↔ c ∈ t.targets ∧ c ≠ old ∨ old ∈ t.targets ∧ c = new := by
  unfold retarget
  rw [mem_targets_mapTargets]
  constructor
  · rintro ⟨b, hb, rfl⟩
    by_cases e : b = old
    · exact Or.inr ⟨e ▸ hb, by rw [if_pos e]⟩
    · rw [if_neg e]
      exact Or.inl ⟨hb, e⟩
  · rintro (⟨hc, hne⟩ | ⟨hold, rfl⟩)
    · exact ⟨c, hc, if_neg hne⟩
    · exact ⟨old, hold, if_pos rfl⟩

@[simp] theorem targets_mapOperands {g : Operand → Operand} : (t.mapOperands g).targets = t.targets := by
  cases t <;> rfl

@[simp] theorem operands_retarget : (t.retarget old new).operands = t.operands := by
  cases t <;> rfl

theorem operands_mapOperands {g : Operand → Operand} : (t.mapOperands g).operands = t.operands.map g := by
  cases t <;> rfl

end Terminator

namespace Func

/-- The phis of a block and its code. -/
def parts (f : Func) (b : BlockId) : List Instr × List Instr := (f.phisAt b, f.bodyAt b)

variable (f : Func) {b c s t : BlockId}

theorem parts_eq {blk : Block} (h : f.block? b = some blk) : f.parts b = blk.parts := by
  simp [parts, phisAt, bodyAt, h, Block.parts]

theorem takeWhile_bodyAt : (f.bodyAt b).takeWhile Instr.isPhi = [] := by
  cases hb : f.block? b with
  | none => simp [bodyAt, hb]
  | some blk => simpa [bodyAt, hb] using blk.takeWhile_body

/-! ## One block -/

section ModifyBlock

variable (g : Block → Block)

theorem block?_modifyBlock :
    (f.modifyBlock b g).block? c = if c = b then (f.block? c).map g else f.block? c := by
  unfold modifyBlock block?
  rw [List.getElem?_modify]
  by_cases h : c = b
  · simp [h]
  · simp [h, Ne.symm h]

@[simp] theorem length_modifyBlock : (f.modifyBlock b g).blocks.length = f.blocks.length := by simp [modifyBlock]

@[simp] theorem params_modifyBlock : (f.modifyBlock b g).params = f.params := rfl

@[simp] theorem entry_modifyBlock : (f.modifyBlock b g).entry = f.entry := rfl

variable {g}

theorem parts_modifyBlock (hb : b < f.blocks.length) {w : List Instr × List Instr}
    (h : ∀ blk, f.block? b = some blk → (g blk).parts = w) :
    (f.modifyBlock b g).parts c = if c = b then w else f.parts c := by
  have hblk : f.block? b = some f.blocks[b] := List.getElem?_eq_getElem hb
  have hmod := f.block?_modifyBlock g (b := b) (c := c)
  split
  · subst c
    rw [if_pos rfl, hblk] at hmod
    rw [parts_eq _ hmod, h _ hblk]
  · rename_i hne
    rw [if_neg hne] at hmod
    unfold parts phisAt bodyAt
    rw [hmod]

theorem term?_modifyBlock {r : Terminator → Terminator} (h : ∀ blk, (g blk).term = r blk.term) :
    (f.modifyBlock b g).term? c = if c = b then (f.term? c).map r else f.term? c := by
  unfold term?
  rw [block?_modifyBlock]
  split
  · simp [Function.comp_def, h]
  · rfl

theorem term?_modifyBlock_of_same (h : ∀ blk, (g blk).term = blk.term) : (f.modifyBlock b g).term? c = f.term? c := by
  rw [f.term?_modifyBlock (r := id) h]
  split
  · exact Option.map_id_apply
  · rfl

end ModifyBlock

/-! ## Moving code and phis -/

@[simp] theorem length_moveBody : (f.moveBody s t).blocks.length = f.blocks.length := by simp [moveBody]

@[simp] theorem length_movePhis : (f.movePhis s t).blocks.length = f.blocks.length := by simp [movePhis]

@[simp] theorem length_mergeExits : (f.mergeExits s t).blocks.length = f.blocks.length := by simp [mergeExits]

@[simp] theorem length_moveGuardPhis {g : GuardShape} : (f.moveGuardPhis g).blocks.length = f.blocks.length := by
  simp [moveGuardPhis]

@[simp] theorem length_retargetAt {old new : BlockId} : (f.retargetAt b old new).blocks.length = f.blocks.length := by
  simp [retargetAt]

section Move

variable (hne : s ≠ t) (hs : s < f.blocks.length) (ht : t < f.blocks.length)

include hne hs ht

theorem parts_moveBody : (f.moveBody s t).parts c =
    if c = s then (f.phisAt s, []) else if c = t then (f.phisAt t, f.bodyAt t ++ f.bodyAt s) else f.parts c := by
  have hfirst : ∀ c, (f.modifyBlock s Block.dropBody).parts c = if c = s then (f.phisAt s, []) else f.parts c := by
    refine fun c => f.parts_modifyBlock hs fun blk h => ?_
    rw [blk.parts_dropBody]
    simp [phisAt, h]
  unfold moveBody
  rw [parts_modifyBlock _ (by simpa using ht) (w := (f.phisAt t, f.bodyAt t ++ f.bodyAt s)), hfirst]
  · by_cases e : c = s
    · simp [e, hne]
    · simp [e]
  · intro blk h
    rw [block?_modifyBlock, if_neg hne.symm] at h
    rw [blk.parts_append f.takeWhile_bodyAt]
    simp [phisAt, bodyAt, h]

theorem phisAt_moveBody : (f.moveBody s t).phisAt c = f.phisAt c := by
  have h := congrArg Prod.fst (f.parts_moveBody hne hs ht (c := c))
  refine h.trans ?_
  split
  · rw [‹c = s›]
  · split
    · rw [‹c = t›]
    · rfl

theorem bodyAt_moveBody : (f.moveBody s t).bodyAt c =
    if c = s then [] else if c = t then f.bodyAt t ++ f.bodyAt s else f.bodyAt c := by
  have h := congrArg Prod.snd (f.parts_moveBody hne hs ht (c := c))
  refine h.trans ?_
  rw [apply_ite Prod.snd, apply_ite Prod.snd]
  rfl

theorem parts_movePhis : (f.movePhis s t).parts c =
    if c = s then ([], f.bodyAt s) else if c = t then (f.phisAt t ++ f.phisAt s, f.bodyAt t) else f.parts c := by
  have hfirst : ∀ c, (f.modifyBlock s Block.dropPhis).parts c = if c = s then ([], f.bodyAt s) else f.parts c := by
    refine fun c => f.parts_modifyBlock hs fun blk h => ?_
    rw [blk.parts_dropPhis]
    simp [bodyAt, h]
  unfold movePhis
  rw [parts_modifyBlock _ (by simpa using ht) (w := (f.phisAt t ++ f.phisAt s, f.bodyAt t)), hfirst]
  · by_cases e : c = s
    · simp [e, hne]
    · simp [e]
  · intro blk h
    rw [block?_modifyBlock, if_neg hne.symm] at h
    rw [(blk.parts_pushPhis fun _ => f.isPhi_of_mem_phisAt).1]
    simp [phisAt, bodyAt, h]

theorem phisAt_movePhis : (f.movePhis s t).phisAt c =
    if c = s then [] else if c = t then f.phisAt t ++ f.phisAt s else f.phisAt c := by
  have h := congrArg Prod.fst (f.parts_movePhis hne hs ht (c := c))
  refine h.trans ?_
  rw [apply_ite Prod.fst, apply_ite Prod.fst]
  rfl

theorem bodyAt_movePhis : (f.movePhis s t).bodyAt c = f.bodyAt c := by
  have h := congrArg Prod.snd (f.parts_movePhis hne hs ht (c := c))
  refine h.trans ?_
  split
  · rw [‹c = s›]
  · split
    · rw [‹c = t›]
    · rfl

/-- Exits are merged phis first. -/
theorem parts_mergeExits : (f.mergeExits s t).parts c =
    if c = s then ([], [])
    else if c = t then (f.phisAt s ++ f.phisAt t, f.bodyAt s ++ f.bodyAt t)
    else f.parts c := by
  have hfirst : ∀ c, (f.modifyBlock s fun b => { b with instrs := [] }).parts c =
      if c = s then ([], []) else f.parts c :=
    fun c => f.parts_modifyBlock hs fun blk _ => rfl
  have hsecond : (f.modifyBlock s fun b => { b with instrs := [] }).phisAt t = f.phisAt t := by
    have h := congrArg Prod.fst (hfirst t)
    rwa [if_neg hne.symm] at h
  unfold mergeExits
  simp only [hsecond]
  rw [parts_modifyBlock _ (by simpa using ht) (w := (f.phisAt s ++ f.phisAt t, f.bodyAt s ++ f.bodyAt t)),
    parts_modifyBlock _ (by simpa using ht) (w := ([], f.bodyAt t)), hfirst]
  · by_cases e : c = s
    · simp [e, hne]
    · by_cases e' : c = t <;> simp [e', hne.symm]
  · intro blk h
    rw [block?_modifyBlock, if_neg hne.symm] at h
    rw [blk.parts_dropPhis]
    simp [bodyAt, h]
  · intro blk h
    rw [block?_modifyBlock, if_pos rfl, block?_modifyBlock, if_neg hne.symm] at h
    obtain ⟨old, hold, rfl⟩ := Option.map_eq_some_iff.mp h
    have hbody : f.bodyAt t = old.body := by simp [bodyAt, hold]
    refine Block.parts_of_append _ ?_ (fun i hi => ?_)
      (Block.takeWhile_append_body f.takeWhile_bodyAt f.takeWhile_bodyAt)
    · simp [Block.prepend, Block.dropPhis, hbody]
    · rcases List.mem_append.mp hi with h | h <;> exact f.isPhi_of_mem_phisAt h

end Move

theorem parts_clear (hs : s < f.blocks.length) :
    (f.modifyBlock s Block.dropBody).parts c = if c = s then (f.phisAt s, []) else f.parts c := by
  refine f.parts_modifyBlock hs fun blk h => ?_
  rw [blk.parts_dropBody]
  simp [phisAt, h]

theorem parts_append (ht : t < f.blocks.length) {is : List Instr} (his : is.takeWhile Instr.isPhi = []) :
    (f.modifyBlock t (·.append is)).parts c = if c = t then (f.phisAt t, f.bodyAt t ++ is) else f.parts c := by
  refine f.parts_modifyBlock ht fun blk h => ?_
  rw [blk.parts_append his]
  simp [phisAt, bodyAt, h]

theorem phisAt_clear (hs : s < f.blocks.length) : (f.modifyBlock s Block.dropBody).phisAt c = f.phisAt c := by
  refine (congrArg Prod.fst (f.parts_clear hs (c := c))).trans ?_
  split
  · rw [‹c = s›]
  · rfl

theorem bodyAt_clear (hs : s < f.blocks.length) :
    (f.modifyBlock s Block.dropBody).bodyAt c = if c = s then [] else f.bodyAt c := by
  refine (congrArg Prod.snd (f.parts_clear hs (c := c))).trans ?_
  rw [apply_ite Prod.snd]
  rfl

theorem phisAt_append (ht : t < f.blocks.length) {is : List Instr} (his : is.takeWhile Instr.isPhi = []) :
    (f.modifyBlock t (·.append is)).phisAt c = f.phisAt c := by
  refine (congrArg Prod.fst (f.parts_append ht his (c := c))).trans ?_
  split
  · rw [‹c = t›]
  · rfl

theorem bodyAt_append (ht : t < f.blocks.length) {is : List Instr} (his : is.takeWhile Instr.isPhi = []) :
    (f.modifyBlock t (·.append is)).bodyAt c = if c = t then f.bodyAt t ++ is else f.bodyAt c := by
  refine (congrArg Prod.snd (f.parts_append ht his (c := c))).trans ?_
  rw [apply_ite Prod.snd]
  rfl

/-- The code of two blocks taken out, that of the first put at the end of one block and that of the second at the end of
another. -/
theorem bodyAt_takeOver {x y : BlockId} (hs : s < f.blocks.length) (ht : t < f.blocks.length)
    (hx : x < f.blocks.length) (hy : y < f.blocks.length) :
    ((((f.modifyBlock s Block.dropBody).modifyBlock t Block.dropBody).modifyBlock x
        (·.append (f.bodyAt s))).modifyBlock y (·.append ((f.modifyBlock s Block.dropBody).bodyAt t))).bodyAt c =
      (if c = s ∨ c = t then [] else f.bodyAt c) ++ (if c = x then f.bodyAt s else []) ++
        if c = y ∧ t ≠ s then f.bodyAt t else [] := by
  have h₁ : ((f.modifyBlock s Block.dropBody).modifyBlock t Block.dropBody).bodyAt c =
      if c = s ∨ c = t then [] else f.bodyAt c := by
    rw [bodyAt_clear _ (by simpa using ht), bodyAt_clear _ hs]
    by_cases e : c = t <;> simp [e]
  have h₂ : (((f.modifyBlock s Block.dropBody).modifyBlock t Block.dropBody).modifyBlock x
      (·.append (f.bodyAt s))).bodyAt c =
        (if c = s ∨ c = t then [] else f.bodyAt c) ++ if c = x then f.bodyAt s else [] := by
    rw [bodyAt_append _ (by simpa using hx) f.takeWhile_bodyAt]
    split
    · rw [← ‹c = x›, h₁]
    · rw [h₁, List.append_nil]
  have h₃ : (f.modifyBlock s Block.dropBody).bodyAt t = if t = s then [] else f.bodyAt t := f.bodyAt_clear hs
  rw [bodyAt_append _ (by simpa using hy) (takeWhile_bodyAt _), h₃]
  by_cases e : c = y
  · subst e
    rw [if_pos rfl, h₂]
    by_cases e' : t = s <;> simp [e']
  · rw [if_neg e, h₂]
    simp [e]

theorem parts_retargetAt {old new : BlockId} : (f.retargetAt b old new).parts c = f.parts c := by
  unfold parts phisAt bodyAt retargetAt
  rw [block?_modifyBlock]
  split
  · cases f.block? c <;> rfl
  · rfl

theorem term?_retargetAt {old new : BlockId} : (f.retargetAt b old new).term? c =
    if c = b then (f.term? c).map (Terminator.retarget old new) else f.term? c :=
  f.term?_modifyBlock fun _ => rfl

theorem term?_clear : (f.modifyBlock s Block.dropBody).term? c = f.term? c :=
  f.term?_modifyBlock_of_same fun _ => rfl

theorem term?_append {is : List Instr} : (f.modifyBlock t (·.append is)).term? c = f.term? c :=
  f.term?_modifyBlock_of_same fun _ => rfl

theorem term?_dropPhis : (f.modifyBlock s Block.dropPhis).term? c = f.term? c :=
  f.term?_modifyBlock_of_same fun _ => rfl

theorem term?_moveBody : (f.moveBody s t).term? c = f.term? c := by
  rw [moveBody, term?_append, term?_clear]

theorem term?_movePhis : (f.movePhis s t).term? c = f.term? c := by
  rw [movePhis, term?_modifyBlock_of_same _ fun blk => (blk.parts_pushPhis fun _ => f.isPhi_of_mem_phisAt).2,
    term?_dropPhis]

theorem term?_mergeExits : (f.mergeExits s t).term? c = f.term? c := by
  refine (term?_modifyBlock_of_same _ fun _ => ?_).trans ((term?_dropPhis _).trans
    (f.term?_modifyBlock_of_same fun _ => ?_)) <;> rfl

/-! ## Guards -/

theorem isPhi_resolveSources (values : Table ValueId Operand) (i : Instr) :
    (resolveSources b values i).isPhi = i.isPhi := Op.isPhi_mapSources ..

theorem dest?_resolveSources (values : Table ValueId Operand) (i : Instr) :
    (resolveSources b values i).dest? = i.dest? := Op.dest?_mapSources ..

theorem sources?_resolveSources (values : Table ValueId Operand) (i : Instr) :
    (resolveSources b values i).sources? = i.sources?.map (List.map fun s =>
      if s.1 = b then (s.1, (s.2.var?.bind values.get?).getD s.2) else s) := Op.sources?_mapSources ..

theorem resolveSources_of_not_phi {values : Table ValueId Operand} {i : Instr} (h : i.isPhi = false) :
    resolveSources b values i = i := by
  unfold resolveSources
  rw [Op.mapSources_of_not_phi _ _ h]

theorem parts_moveGuardPhis {g : GuardShape} (hne : g.second ≠ g.join) (hs : g.second < f.blocks.length)
    (ht : g.join < f.blocks.length) {r : Instr → Instr}
    (hr : r = resolveSources g.second (incomingFrom g.first (f.phisAt g.second))) :
    (f.moveGuardPhis g).parts c =
      if c = g.second then ([], f.bodyAt g.second)
      else if c = g.join then (f.phisAt g.second ++ (f.phisAt g.join).map r, (f.bodyAt g.join).map r)
      else f.parts c := by
  have hfirst : ∀ c, (f.modifyBlock g.second Block.dropPhis).parts c =
      if c = g.second then ([], f.bodyAt g.second) else f.parts c := by
    refine fun c => f.parts_modifyBlock hs fun blk h => ?_
    rw [blk.parts_dropPhis]
    simp [bodyAt, h]
  have hjoin : ∀ blk, (f.modifyBlock g.second Block.dropPhis).block? g.join = some blk →
      ((blk.mapInstrs r).prepend (f.phisAt g.second)).parts =
        (f.phisAt g.second ++ (f.phisAt g.join).map r, (f.bodyAt g.join).map r) := by
    subst hr
    intro blk h
    rw [block?_modifyBlock, if_neg hne.symm] at h
    rw [Block.parts_prepend _ fun _ => f.isPhi_of_mem_phisAt, Block.phis_mapInstrs _ (isPhi_resolveSources _),
      Block.body_mapInstrs _ (isPhi_resolveSources _)]
    simp [phisAt, bodyAt, h]
  refine (Eq.trans (by rw [hr]; rfl) (parts_modifyBlock _ (by simpa using ht) hjoin)).trans ?_
  rw [hfirst]
  by_cases e : c = g.second
  · simp [e, hne]
  · simp [e]

theorem term?_moveGuardPhis {g : GuardShape} : (f.moveGuardPhis g).term? c = f.term? c := by
  refine (term?_modifyBlock_of_same _ fun _ => ?_).trans (term?_dropPhis _)
  rfl

/-! ## All blocks -/

section MapInstrs

variable {g : Instr → Instr} {r : Terminator → Terminator}

theorem parts_mapBlocks (hg : ∀ i, (g i).isPhi = i.isPhi) :
    (f.mapBlocks fun b => (b.mapInstrs g).mapTerm r).parts c = ((f.phisAt c).map g, (f.bodyAt c).map g) := by
  cases h : f.block? c with
  | none =>
    have h' : (f.mapBlocks fun b => (b.mapInstrs g).mapTerm r).block? c = none := by
      simpa [block?, mapBlocks] using h
    simp [parts, phisAt, bodyAt, h, h']
  | some blk =>
    have h' : (f.mapBlocks fun b => (b.mapInstrs g).mapTerm r).block? c = some ((blk.mapInstrs g).mapTerm r) := by
      unfold block? at h
      simp [block?, mapBlocks, h]
    have hphis := blk.phis_mapInstrs hg
    have hbody := blk.body_mapInstrs hg
    rw [parts_eq _ h']
    simp only [phisAt, bodyAt, h, Option.map_some, Option.getD_some, ← hphis, ← hbody]
    rfl

theorem term?_mapBlocks : (f.mapBlocks fun b => (b.mapInstrs g).mapTerm r).term? c = (f.term? c).map r := by
  unfold term? block? mapBlocks
  cases h : f.blocks[c]? <;> simp [h, Block.mapTerm, Block.mapInstrs]

end MapInstrs

/-- Renaming after renaming is one renaming. -/
theorem parts_renameSources {renamings : List (BlockId × BlockId)} {σ : BlockId → BlockId}
    (hσ : σ = fun b => renamings.foldl (fun b r => if b = r.1 then r.2 else b) b) :
    (f.renameSources renamings).parts c =
      ((f.phisAt c).map (Instr.mapSourceBlocks σ), (f.bodyAt c).map (Instr.mapSourceBlocks σ)) := by
  have hfold : ∀ i : Instr, renamings.foldl (fun i r => i.renameSource r.1 r.2) i = i.mapSourceBlocks σ := by
    subst hσ
    induction renamings with
    | nil =>
      intro i
      obtain ⟨op, _⟩ := i
      cases op <;> simp [Instr.mapSourceBlocks, Op.mapSources]
    | cons r rest ih =>
      intro i
      rw [List.foldl_cons, ih, Instr.renameSource, Instr.mapSourceBlocks_mapSourceBlocks]
      rfl
  have hg : (fun i : Instr => renamings.foldl (fun i r => i.renameSource r.1 r.2) i) = Instr.mapSourceBlocks σ :=
    funext hfold
  unfold renameSources
  rw [hg]
  exact f.parts_mapBlocks (r := id) fun i => i.isPhi_mapSourceBlocks σ

theorem term?_renameSources {renamings : List (BlockId × BlockId)} : (f.renameSources renamings).term? c = f.term? c :=
  (f.term?_mapBlocks (r := id)).trans Option.map_id_apply

@[simp] theorem length_renameSources {renamings : List (BlockId × BlockId)} :
    (f.renameSources renamings).blocks.length = f.blocks.length := by
  simp [renameSources, mapBlocks]

@[simp] theorem entry_renameSources {renamings : List (BlockId × BlockId)} :
    (f.renameSources renamings).entry = f.entry := rfl

@[simp] theorem params_renameSources {renamings : List (BlockId × BlockId)} :
    (f.renameSources renamings).params = f.params := rfl

end Func

end SsaFusion
