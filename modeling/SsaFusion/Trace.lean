/-!
# Log records

Transformations report what they do as records of some level, from errors to detailed traces. `Traced` is a result
together with the records written on the way to it, in order. Some of them rest on recursions that may go on for ever:
an `Attempt` then has no result, only the records written so far.
-/

namespace SsaFusion

/-- The levels of records, most severe first. -/
inductive Level where
  | error | warn | debug | trace
deriving DecidableEq, Inhabited

namespace Level

/-- How far down a level stands. -/
def rank : Level → Nat
  | error => 0
  | warn => 1
  | debug => 2
  | trace => 3

def text : Level → String
  | error => "ERROR"
  | warn => "WARN"
  | debug => "DEBUG"
  | trace => "TRACE"

end Level

/-- One record. -/
structure Record where
  level : Level
  message : String
deriving DecidableEq, Inhabited

def Record.line (r : Record) : String := r.level.text ++ " " ++ r.message

/-- A result with the records written on the way. -/
structure Traced (α : Type) where
  value : α
  records : List Record := []

namespace Traced

variable {α β : Type}

/-- The lines of the records at a level or more severe. -/
def lines (t : Traced α) (level : Level) : List String :=
  (t.records.filter fun r => decide (r.level.rank ≤ level.rank)).map Record.line

instance : Monad Traced where
  pure a := ⟨a, []⟩
  bind x f :=
    let y := f x.value
    ⟨y.value, x.records ++ y.records⟩

/-- Writes a record. -/
def note (level : Level) (message : String) : Traced Unit := ⟨(), [⟨level, message⟩]⟩

/-- Writes several records of one level. -/
def notes (level : Level) (messages : List String) : Traced Unit := ⟨(), messages.map (⟨level, ·⟩)⟩

@[simp] theorem value_pure (a : α) : (pure a : Traced α).value = a := rfl

@[simp] theorem records_pure (a : α) : (pure a : Traced α).records = [] := rfl

@[simp] theorem value_bind (x : Traced α) (f : α → Traced β) : (x >>= f).value = (f x.value).value := rfl

@[simp] theorem records_bind (x : Traced α) (f : α → Traced β) :
    (x >>= f).records = x.records ++ (f x.value).records := rfl

end Traced

/-- A computation that has no result if it goes on for ever, with the records written on the way. -/
abbrev Attempt := OptionT Traced

namespace Attempt

variable {α β : Type}

/-- The result, if the computation ends. -/
def result? (a : Attempt α) : Option α := a.run.value

@[simp] theorem result?_pure (a : α) : (pure a : Attempt α).result? = some a := rfl

@[simp] theorem result?_bind (x : Attempt α) (f : α → Attempt β) :
    (x >>= f).result? = x.result?.bind fun a => (f a).result? := by
  simp only [result?, OptionT.run_bind, Option.elimM, Traced.value_bind]
  cases x.run.value <;> rfl

@[simp] theorem result?_lift (t : Traced α) : result? (OptionT.lift t) = some t.value := rfl

end Attempt

end SsaFusion
