import Mathlib.Data.Nat.Find
import SsaFusion.Proofs.Machine.Moments

/-!
# The budget

The budget of a run only cuts it short. What a machine does under all budgets at once is a function of the budget, and
such functions are metered (`Metered`): a result is there for every budget that covers its steps, and a fault of the
function itself is there for every larger budget. Counting a step is metered, what takes no step is, and metered functions
follow one another (`Metered.bind`), so runs are metered (`run_metered`). A metered function has a threshold, below which
the budget is used up and from which on nothing changes (`Metered.threshold`).
-/

namespace SsaFusion

variable {α β : Type}

/-! ## Faults other than the end of the budget -/

/-- A computation does not end for lack of budget. -/
def Settles (x : Except Fault α) : Prop := ∀ n, x ≠ .error (.budgetExhausted n)

theorem settles_ok (a : α) : Settles (.ok a : Except Fault α) := fun _ h => by cases h

theorem Settles.bind {x : Except Fault α} {k : α → Except Fault β} (hx : Settles x) (hk : ∀ a, Settles (k a)) :
    Settles (x >>= k) := by
  cases x with
  | ok a => exact hk a
  | error e => exact fun n h => hx n (by cases h; rfl)

namespace Machine

variable {m : Machine}

theorem read_settles (o : Operand) : Settles (m.read o) := by
  intro n h
  unfold read at h
  split at h
  · cases h
  · split at h <;> cases h

theorem readInt_settles (o : Operand) : Settles (m.readInt o) := by
  refine (read_settles o).bind fun d n h => ?_
  split at h <;> cases h

theorem readBool_settles (o : Operand) : Settles (m.readBool o) := by
  refine (read_settles o).bind fun d n h => ?_
  split at h <;> cases h

theorem readPtr_settles (o : Operand) : Settles (m.readPtr o) := by
  refine (read_settles o).bind fun d n h => ?_
  split at h <;> cases h

theorem locate_settles (o : Operand) : Settles (m.locate o) := by
  refine (readPtr_settles o).bind fun p n h => ?_
  simp only at h
  split at h
  · cases h
  · split at h
    · cases h
    · split at h <;> cases h

theorem onInts_settles {x y : Operand} {k : Word → Word → Except Fault Datum} (hk : ∀ a b, Settles (k a b)) :
    Settles (m.onInts x y k) :=
  (readInt_settles x).bind fun a => (readInt_settles y).bind fun b => hk a b

theorem onBools_settles {x y : Operand} {k : Bool → Bool → Bool} : Settles (m.onBools x y k) :=
  (readBool_settles x).bind fun _ => (readBool_settles y).bind fun _ => settles_ok _

theorem equal_settles (x y : Operand) : Settles (m.equal x y) := by
  refine (read_settles x).bind fun a => (read_settles y).bind fun b n h => ?_
  split at h <;> cases h

theorem unary_settles (op : UnOp) (x : Operand) : Settles (m.unary op x) := by
  cases op with
  | neg => exact (readInt_settles x).bind fun _ => settles_ok _
  | not => exact (readBool_settles x).bind fun _ => settles_ok _

theorem binary_settles (op : BinOp) (x y : Operand) : Settles (m.binary op x y) := by
  have divides : ∀ k : Word → Word → Word,
      Settles (m.onInts x y fun a b => if b = 0 then .error .divisionByZero else .ok (.int (k a b))) := by
    refine fun k => onInts_settles fun a b n h => ?_
    split at h <;> cases h
  cases op with
  | div | rem => exact divides _
  | and | or => exact onBools_settles
  | eq | ne => exact (equal_settles x y).bind fun _ => settles_ok _
  | _ => exact onInts_settles fun _ _ => settles_ok _

theorem allocate_settles (size : Nat) : Settles (m.allocate size) := by
  intro n h
  unfold allocate at h
  split at h <;> cases h

theorem execute_settles (op : Op) : Settles (m.execute op) := by
  cases op with
  | assign d x => exact (read_settles x).bind fun _ => settles_ok _
  | unary op d x => exact (unary_settles op x).bind fun _ => settles_ok _
  | binary op d x y => exact (binary_settles op x y).bind fun _ => settles_ok _
  | alloc d size => exact (allocate_settles size).bind fun _ => settles_ok _
  | shift d base offset =>
    exact (readInt_settles offset).bind fun _ => (readPtr_settles base).bind fun _ => settles_ok _
  | load d address => exact (locate_settles address).bind fun _ => settles_ok _
  | store address value => exact (read_settles value).bind fun _ => (locate_settles address).bind fun _ => settles_ok _
  | phi | nop => exact settles_ok _

theorem readAll_settles (os : List Operand) : Settles (m.readAll os) := by
  induction os with
  | nil => exact settles_ok _
  | cons o rest ih => exact (read_settles o).bind fun _ => ih.bind fun _ => settles_ok _

theorem transfer_settles (b : BlockId) (t : Terminator) : Settles (m.transfer b t) := by
  cases t with
  | jump => exact settles_ok _
  | branch c => exact (readBool_settles c).bind fun _ => settles_ok _
  | ret vs => exact (readAll_settles vs).bind fun _ => settles_ok _
  | unreachable => exact fun n h => by cases h

end Machine

/-! ## Metered computations -/

/-- What a computation that begins with `start` steps taken does under each budget that covers these: a result comes
exactly if its steps are covered, and any other end is that of the budget or comes under every larger budget too. -/
structure Metered (start : Nat) (steps : α → Nat) (x : Nat → Except Fault α) : Prop where
  ok : ∀ {limit a}, start ≤ limit → x limit = .ok a →
    start ≤ steps a ∧ steps a ≤ limit ∧ ∀ limit', steps a ≤ limit' → x limit' = .ok a
  error : ∀ {limit e}, start ≤ limit → x limit = .error e → e = .budgetExhausted limit ∨
    (∀ n, e ≠ .budgetExhausted n) ∧ ∀ limit', limit ≤ limit' → x limit' = .error e

namespace Metered

variable {start : Nat} {steps : α → Nat} {x : Nat → Except Fault α}

/-- A computation that takes no step does not depend on the budget. -/
theorem of_settles {y : Except Fault α} (hy : Settles y) (hsteps : ∀ a, y = .ok a → steps a = start) :
    Metered start steps fun _ => y where
  ok hle h := by
    have heq := hsteps _ h
    exact ⟨by omega, by omega, fun _ _ => h⟩
  error _ h := Or.inr ⟨fun n hn => hy n (hn ▸ h), fun _ _ => h⟩

theorem of_reading {y : Except Fault α} (hy : Settles y) (start : Nat) : Metered start (fun _ => start) fun _ => y :=
  .of_settles hy fun _ _ => rfl

/-- One computation after another. -/
theorem bind {steps' : β → Nat} {k : α → Nat → Except Fault β} (hx : Metered start steps x)
    (hk : ∀ a, Metered (steps a) steps' (k a)) : Metered start steps' fun limit => x limit >>= fun a => k a limit where
  ok {limit b} hle h := by
    obtain ⟨a, ha, hb⟩ := bind_eq_ok h
    obtain ⟨hstart, hcovered, hall⟩ := hx.ok hle ha
    obtain ⟨hstart', hcovered', hall'⟩ := (hk a).ok hcovered hb
    refine ⟨hstart.trans hstart', hcovered', fun limit' hle' => ?_⟩
    rw [hall limit' (hstart'.trans hle'), ok_bind, hall' limit' hle']
  error {limit e} hle h := by
    cases ha : x limit with
    | error e' =>
      rw [ha] at h
      cases h
      refine (hx.error hle ha).imp_right fun ⟨hfinal, hall⟩ => ⟨hfinal, fun limit' hle' => ?_⟩
      rw [hall limit' hle']
      rfl
    | ok a =>
      rw [ha, ok_bind] at h
      obtain ⟨-, hcovered, hall⟩ := hx.ok hle ha
      refine ((hk a).error hcovered h).imp_right fun ⟨hfinal, hall'⟩ => ⟨hfinal, fun limit' hle' => ?_⟩
      rw [hall limit' (hcovered.trans hle'), ok_bind, hall' limit' hle']

/-- **Thresholds.** Under every budget a metered computation lacks budget, or from some budget on it has one outcome, and
lacks budget under every smaller one. That budget is the number of steps of a result. -/
theorem threshold (hx : Metered 0 steps x) :
    (∀ limit, x limit = .error (.budgetExhausted limit)) ∨
      ∃ s o, Settles o ∧ (∀ limit, s ≤ limit → x limit = o) ∧
        (∀ limit, limit < s → x limit = .error (.budgetExhausted limit)) ∧ ∀ a, o = .ok a → s = steps a := by
  classical
  by_cases hall : ∀ limit, x limit = .error (.budgetExhausted limit)
  · exact Or.inl hall
  · have hsome : ∃ limit, x limit ≠ .error (.budgetExhausted limit) := not_forall.mp hall
    have hleast : ∀ limit, limit < Nat.find hsome → x limit = .error (.budgetExhausted limit) :=
      fun limit hlt => not_not.mp (Nat.find_min hsome hlt)
    refine Or.inr ⟨Nat.find hsome, x (Nat.find hsome), ?_⟩
    cases ho : x (Nat.find hsome) with
    | ok a =>
      obtain ⟨-, hcovered, hsame⟩ := hx.ok (Nat.zero_le _) ho
      refine ⟨settles_ok a, fun limit hle => hsame limit (hcovered.trans hle), hleast, fun b hb => ?_⟩
      cases hb
      refine Nat.le_antisymm (Nat.find_min' hsome fun hbudget => ?_) hcovered
      rw [hsame _ (Nat.le_refl _)] at hbudget
      cases hbudget
    | error e =>
      have hne : e ≠ .budgetExhausted (Nat.find hsome) := fun he => Nat.find_spec hsome (he ▸ ho)
      obtain ⟨hfinal, hsame⟩ := (hx.error (Nat.zero_le _) ho).resolve_left hne
      exact ⟨fun n h => hfinal n (by cases h; rfl), hsame, hleast, fun a ha => by cases ha⟩

end Metered

/-! ## Runs are metered -/

namespace Machine

variable {m : Machine} {f : Func}

theorem tick_metered (m : Machine) : Metered m.steps Machine.steps m.tick where
  ok _ h := by
    obtain ⟨hlt, rfl⟩ := tick_eq_ok.mp h
    exact ⟨Nat.le_succ _, hlt, fun limit' hle => tick_eq_ok.mpr ⟨hle, rfl⟩⟩
  error _ h := by
    unfold tick at h
    split at h
    · cases h
    · cases h
      exact Or.inl rfl

theorem runInstrs_metered (m : Machine) (is : List Instr) :
    Metered m.steps Machine.steps fun limit => m.runInstrs limit is := by
  induction is generalizing m with
  | nil => exact .of_settles (settles_ok m) fun _ h => by cases h; rfl
  | cons i rest ih =>
    refine m.tick_metered.bind fun m₁ => ?_
    exact (Metered.of_settles (execute_settles i.op) fun _ h => (execute_frame h).1).bind ih

theorem gather_metered (m : Machine) (a b : BlockId) (is : List Instr) :
    Metered m.steps (fun r => r.1.steps) fun limit => m.gather limit a b is := by
  induction is generalizing m with
  | nil => exact .of_settles (settles_ok _) fun _ h => by cases h; rfl
  | cons i rest ih =>
    unfold gather
    split
    · refine m.tick_metered.bind fun m₁ => ?_
      split
      · exact .of_settles (fun n h => by cases h) fun _ h => by cases h
      · refine (Metered.of_reading (read_settles _) m₁.steps).bind fun datum => ?_
        exact (ih m₁).bind fun r => .of_settles (settles_ok _) fun _ h => by cases h; rfl
    · exact ih m

theorem enter_metered (m : Machine) (f : Func) (a b : BlockId) :
    Metered m.steps Machine.steps fun limit => m.enter f limit a b := by
  unfold enter
  split
  · exact .of_settles (fun n h => by cases h) fun _ h => by cases h
  · exact (gather_metered m a b _).bind fun r => .of_settles (settles_ok _) fun _ h => by cases h; rfl

end Machine

/-- For a fixed number of blocks, a run is metered: to be out of blocks counts as being out of budget. -/
theorem runBlocks_metered (f : Func) (fuel : Nat) (m : Machine) (b : BlockId) (visited : Nat) :
    Metered m.steps RunResult.steps fun limit => runBlocks f limit fuel m b visited := by
  induction fuel generalizing m b visited with
  | zero =>
    refine ⟨fun _ h => (by cases h), fun _ h => ?_⟩
    cases h
    exact Or.inl rfl
  | succ fuel ih =>
    unfold runBlocks
    split
    · exact .of_settles (fun n h => by cases h) fun _ h => by cases h
    · rename_i blk _
      refine (m.runInstrs_metered blk.body).bind fun m₁ => m₁.tick_metered.bind fun m₂ => ?_
      refine (Metered.of_reading (Machine.transfer_settles b blk.term) m₂.steps).bind fun result => ?_
      cases result with
      | finish values => exact .of_settles (settles_ok _) fun _ h => by cases h; rfl
      | goto next => exact (m₂.enter_metered f b next).bind fun m₃ => ih m₃ next (visited + 1)

/-- Every block takes a step, so what the budget does not cover is not reached, and more blocks make no difference. -/
theorem runBlocks_fuel {f : Func} {limit fuel fuel' : Nat} {m : Machine} (b : BlockId) (visited : Nat)
    (hfuel : limit < m.steps + fuel) (hle : fuel ≤ fuel') (hsteps : m.steps ≤ limit) :
    runBlocks f limit fuel' m b visited = runBlocks f limit fuel m b visited := by
  induction fuel generalizing fuel' m b visited with
  | zero => omega
  | succ fuel ih =>
    obtain ⟨k, rfl⟩ : ∃ k, fuel' = k + 1 := ⟨fuel' - 1, by omega⟩
    unfold runBlocks
    split
    · rfl
    · rename_i blk _
      cases hbody : m.runInstrs limit blk.body with
      | error e => rfl
      | ok m₁ =>
        obtain ⟨hge₁, -, -⟩ := (m.runInstrs_metered blk.body).ok hsteps hbody
        rw [ok_bind, ok_bind]
        cases htick : m₁.tick limit with
        | error e => rfl
        | ok m₂ =>
          obtain ⟨hlt, rfl⟩ := Machine.tick_eq_ok.mp htick
          rw [ok_bind, ok_bind]
          cases htrans : Machine.transfer { m₁ with steps := m₁.steps + 1 } b blk.term with
          | error e => rfl
          | ok result =>
            rw [ok_bind, ok_bind]
            cases result with
            | finish values => rfl
            | goto next =>
              simp only
              cases henter : Machine.enter f limit { m₁ with steps := m₁.steps + 1 } b next with
              | error e => rfl
              | ok m₃ =>
                obtain ⟨hge₃, hle₃, -⟩ := (Machine.enter_metered _ f b next).ok hlt henter
                rw [ok_bind, ok_bind]
                simp only at hge₃
                exact ih next (visited + 1) (by omega) (by omega) hle₃

namespace Func

variable {f : Func} {args : List Word} {limit k : Nat} {M : Moment}

theorem run_metered (f : Func) (args : List Word) : Metered 0 RunResult.steps fun limit => f.run args limit := by
  by_cases ha : args.length = f.params.length
  · -- up to some budget, all runs are runs over one number of blocks
    have hrun : ∀ {limit bound}, limit ≤ bound → f.run args limit =
        runBlocks f limit (bound + 1) { env := Table.ofList (f.params.zip (args.map .int)) } f.entry 1 := by
      intro limit bound hle
      rw [run, if_pos ha]
      exact (runBlocks_fuel f.entry 1 (by simp) (by omega) (Nat.zero_le _)).symm
    have hmeter := fun bound =>
      runBlocks_metered f (bound + 1) { env := Table.ofList (f.params.zip (args.map .int)) } f.entry 1
    refine ⟨fun {limit r} hle h => ?_, fun {limit e} hle h => ?_⟩
    · rw [hrun (Nat.le_refl limit)] at h
      obtain ⟨hstart, hcovered, -⟩ := (hmeter limit).ok hle h
      refine ⟨hstart, hcovered, fun limit' hle' => ?_⟩
      rw [← hrun (Nat.le_refl limit), hrun (Nat.le_max_left limit limit')] at h
      rw [hrun (Nat.le_max_right limit limit')]
      exact ((hmeter _).ok hle h).2.2 limit' hle'
    · rcases (hmeter limit).error hle (hrun (Nat.le_refl limit) ▸ h) with hbudget | ⟨hfinal, -⟩
      · exact Or.inl hbudget
      refine Or.inr ⟨hfinal, fun limit' hle' => ?_⟩
      rw [hrun hle'] at h
      rw [hrun (Nat.le_refl limit')]
      exact (((hmeter limit').error hle h).resolve_left (hfinal limit)).2 limit' hle'
  · have hrun : ∀ limit, f.run args limit = .error (.arityMismatch f.params.length args.length) := fun _ => if_neg ha
    simp only [hrun]
    exact .of_settles (fun n h => by cases h) fun _ h => by cases h

/-! ## The moments within the budget -/

/-- Every moment of a run took a step, and all its steps are within the budget. -/
theorem moment?_steps (h : f.moment? args limit k = some M) : k ≤ M.machine.steps ∧ M.machine.steps ≤ limit := by
  induction k generalizing M with
  | zero =>
    rw [moment?] at h
    split at h
    · cases h
      exact ⟨Nat.le_refl _, Nat.zero_le _⟩
    · cases h
  | succ k ih =>
    obtain ⟨M₀, h₀, hnext⟩ := moment?_succ.mp h
    obtain ⟨hk, hle⟩ := ih h₀
    unfold Moment.next at hnext
    split at hnext
    · cases hnext
    · split at hnext
      · obtain ⟨m₁, htick, hnext⟩ := bind_eq_ok hnext
        obtain ⟨m₂, hexec, hnext⟩ := bind_eq_ok hnext
        cases hnext
        obtain ⟨hlt, hm₁⟩ := Machine.tick_eq_ok.mp htick
        have hsteps : m₂.steps = M₀.machine.steps + 1 := by rw [(Machine.execute_frame hexec).1, hm₁]
        simp only
        omega
      · obtain ⟨m₁, htick, hnext⟩ := bind_eq_ok hnext
        obtain ⟨result, -, hnext⟩ := bind_eq_ok hnext
        obtain ⟨hlt, hm₁⟩ := Machine.tick_eq_ok.mp htick
        have hsteps : m₁.steps = M₀.machine.steps + 1 := by rw [hm₁]
        cases result with
        | finish values => cases hnext
        | goto target =>
          obtain ⟨m₂, henter, hnext⟩ := bind_eq_ok hnext
          cases hnext
          obtain ⟨hge, hle'⟩ := Machine.steps_enter (by omega) henter
          simp only
          omega

/-- **The budget only cuts runs short.** On given arguments, a function lacks budget under every budget, or it has one
outcome under all budgets from some number of steps on and lacks budget under all others; where it returns, that number is
the number of its steps. Under a budget of `limit` a run has moments numbered up to `limit` at most, with no more steps
than that taken, and the last of them leads to its outcome; only where the arguments do not fit the parameters is there
none, and the outcome is that they do not. -/
theorem run_threshold (f : Func) (args : List Word) :
    ((∀ limit, f.run args limit = .error (.budgetExhausted limit)) ∨
      ∃ s o, (∀ n, o ≠ .error (.budgetExhausted n)) ∧ (∀ limit, s ≤ limit → f.run args limit = o) ∧
        (∀ limit, limit < s → f.run args limit = .error (.budgetExhausted limit)) ∧ ∀ r, o = .ok r → s = r.steps) ∧
    ∀ limit, args.length ≠ f.params.length ∧ f.run args limit = .error (.arityMismatch f.params.length args.length) ∨
      ∃ k M, f.moment? args limit k = some M ∧ k ≤ M.machine.steps ∧ M.machine.steps ≤ limit ∧
        M.next f limit = (f.run args limit).map .inr := by
  refine ⟨(f.run_metered args).threshold, fun limit => ?_⟩
  by_cases ha : args.length = f.params.length
  · have hstart : f.moment? args limit 0 = some (f.start args) := if_pos ha
    obtain ⟨k, M, hM, hnext⟩ := endsIn_run hstart
    obtain ⟨hk, hle⟩ := moment?_steps hM
    exact Or.inr ⟨k, M, hM, hk, hle, hnext⟩
  · exact Or.inl ⟨ha, if_neg ha⟩

end Func

end SsaFusion
