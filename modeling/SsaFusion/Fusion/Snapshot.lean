import SsaFusion.Symbolic.TripCount
import SsaFusion.Trace

/-!
# What fusion knows

A snapshot holds a function with its dominance and its loops. Questions about it share a memo table of symbolic
expressions and write log records.
-/

namespace SsaFusion

/-- A function with all that is known of its flow graph. -/
structure Snapshot extends Subject where
  dom : DomTree
  postDom : DomTree

/-- The snapshot of a function. -/
def Snapshot.of (f : Func) : Snapshot :=
  let dom := f.dominators
  { func := f, nest := f.loopNest dom, dom, postDom := f.postDominators }

/-- A computation that consults and extends the memo table and writes records. -/
abbrev Inquiry := StateT Memo Attempt

namespace Inquiry

variable {α : Type}

/-- Asks a question that writes no record. -/
def ask (q : Query α) : Inquiry α := fun memo => OptionT.mk (pure (q memo))

/-- Takes over a result that needs no memo table. -/
def take (t : Traced α) : Inquiry α := StateT.lift (OptionT.lift t)

/-- Writes a record. -/
def note (level : Level) (message : String) : Inquiry Unit := take (Traced.note level message)

end Inquiry

namespace Snapshot

variable (s : Snapshot)

/-- Whether an instruction of a loop defines a value. -/
def definedIn (l : Loop) (v : ValueId) : Bool := (s.func.definingBlock? v).any l.contains

/-- Whether a block of a loop reads a value. -/
def readIn (l : Loop) (v : ValueId) : Bool := l.blocks.any fun b => (s.func.block? b).any (·.reads v)

/-- The way past a loop that a guard offers. -/
def skipTarget? (guard preheader : BlockId) : Option BlockId :=
  (s.func.term? guard).bind (Terminator.other? preheader)

end Snapshot

end SsaFusion
