import SsaFusion.Fusion.Snapshot

/-!
# Dependences between two loops

After fusion, round `j` of the second loop runs right after round `j` of the first instead of after all of the first. A
dependence stands against that if the first loop touches a cell only in a later round than the second, or if the second
reads a value that the first computes anew in every round.

An address is followed back to an array or a parameter, and its offset is a symbolic expression. If the first loop moves
by `s` cells a round and the second is `d` cells ahead, the first gets to the same cell `d / s` rounds after the second.
Different arrays never overlap; different parameters may.
-/

namespace SsaFusion

/-- A position in a block; the terminator stands behind the last instruction. -/
structure Position where
  block : BlockId
  index : Nat
deriving DecidableEq, Inhabited

def Position.text (p : Position) : String := blockText p.block ++ "[" ++ toString p.index ++ "]"

/-- The sorts of dependences: read after write, write after read, write after write, and through a value. -/
inductive DependenceKind where
  | flow | anti | output | scalar
deriving DecidableEq, Inhabited

def DependenceKind.text : DependenceKind → String
  | flow => "flow"
  | anti => "anti"
  | output => "output"
  | scalar => "scalar"

/-- A dependence of the second loop on the first that stands against fusion. -/
structure Dependence where
  source : Position
  sink : Position
  kind : DependenceKind
  /-- The rounds between the two accesses, when they are a known number. -/
  distance : Option Word
deriving DecidableEq

def Dependence.text (d : Dependence) : String :=
  d.kind.text ++ " dependence " ++ d.source.text ++ " -> " ++ d.sink.text
    ++ " (distance " ++ (d.distance.elim "unknown" Word.text) ++ ")"

/-- Where an address points: the array or parameter it comes from and the cells from there. -/
structure Location where
  base : ValueId
  /-- The base is an array allocated by the function. -/
  fresh : Bool
  offset : SymExpr
deriving DecidableEq

/-- A load or a store. -/
structure Access where
  position : Position
  isWrite : Bool
  /-- Unknown when the address cannot be followed back. -/
  location : Option Location
deriving DecidableEq

namespace Snapshot

variable (s : Snapshot)

/-! ## Addresses -/

/-- Follows an address back to its base, adding up the cells on the way, for at most the given number of definitions. -/
def followAddress : (depth : Nat) → (v : ValueId) → (offset : SymExpr) → Query (Option Location)
  | 0, _, _ => failure
  | k + 1, v, offset =>
    match s.func.definingOp? v with
    | some (.shift _ base cells) => do
      let offset := offset.plus (← s.exprOf cells)
      match base with
      | .var w => followAddress k w offset
      | .lit _ => return none
    | some (.assign _ (.var w)) => followAddress k w offset
    | some (.alloc _ _) => return if offset.isKnown then some ⟨v, true, offset⟩ else none
    | none => return if s.func.params.contains v && offset.isKnown then some ⟨v, false, offset⟩ else none
    | some _ => return none

/-- The location of an address. There is no answer if the definitions go round in a circle. -/
def locationOf : Operand → Query (Option Location)
  | .lit _ => return none
  | .var v => s.followAddress (s.func.instrs.length + 1) v (.const 0)

/-- The address that an operation accesses, and whether it writes. -/
def accessOf : Op → Option (Operand × Bool)
  | .load _ a => some (a, false)
  | .store a _ => some (a, true)
  | _ => none

/-- The accesses among the instructions of a block that stand at the given positions. -/
def accessesAt (b : BlockId) : List (Instr × Nat) → Query (List Access)
  | [] => return []
  | (i, n) :: rest =>
    match accessOf i.op with
    | none => accessesAt b rest
    | some (address, isWrite) => do
      let location ← s.locationOf address
      return ⟨⟨b, n⟩, isWrite, location⟩ :: (← accessesAt b rest)

/-- The accesses of a list of blocks, in order. -/
def accessesOf : List BlockId → Query (List Access)
  | [] => return []
  | b :: rest => do
    let here ← s.accessesAt b (s.func.instrsOf b).zipIdx
    return here ++ (← accessesOf rest)

/-! ## Memory -/

/-- The cells that an offset moves by in every round of a loop. -/
def stride? (l : Loop) (offset : SymExpr) : Option Word :=
  if s.isSteady l offset then some 0
  else
    match offset with
    | .recur _ step h => if h = l.header then step.const? else none
    | _ => none

/-- The sort of dependence between an access and a later one. -/
def kindOf (a b : Access) : DependenceKind :=
  match a.isWrite, b.isWrite with
  | true, false => .flow
  | false, true => .anti
  | _, _ => .output

/-- The distance of two accesses of one base that stand against fusion; nothing if they do not. -/
def offsetHazard? (l₁ l₂ : Loop) (offset₁ offset₂ : SymExpr) : Option (Option Word) :=
  match ((offset₂.rebase l₂.header l₁.header).minus offset₁).const?, s.stride? l₁ offset₁ with
  | some ahead, some stride =>
    if (0 < ahead && 0 < stride) || (ahead < 0 && stride < 0) || (stride == 0 && ahead == 0) then
      some (Word.exactQuot? ahead stride)
    else none
  | _, _ => some none

/-- The distance of two accesses that stand against fusion; nothing if they do not. -/
def hazard? (l₁ l₂ : Loop) (a b : Access) : Option (Option Word) :=
  match a.location, b.location with
  | some p, some q =>
    if p.base ≠ q.base then if !p.fresh && !q.fresh then some none else none
    else s.offsetHazard? l₁ l₂ p.offset q.offset
  | _, _ => some none

/-- The dependences through memory among accesses of the two loops. -/
def memoryHazards (l₁ l₂ : Loop) (first second : List Access) : List Dependence :=
  first.flatMap fun a => second.filterMap fun b =>
    if a.isWrite || b.isWrite then
      (s.hazard? l₁ l₂ a b).map fun distance => ⟨a.position, b.position, kindOf a b, distance⟩
    else none

/-- The dependences through memory that stand against fusion. -/
def memoryDependences (l₁ l₂ : Loop) : Query (List Dependence) := do
  let first ← s.accessesOf l₁.blocks
  let second ← s.accessesOf l₂.blocks
  return s.memoryHazards l₁ l₂ first second

/-! ## Values -/

/-- Whether a test holds for all values of a list, once it has been made of each of them. -/
def allDecided (test : ValueId → Option Bool) : List ValueId → Option Bool
  | [] => some true
  | v :: rest => do return (← test v) && (← allDecided test rest)

/-- Whether a value comes out the same in every round of a loop: it is defined outside, or by a pure instruction from
such values. At most the given number of definitions are followed. The operands are taken in no particular order, so the
recursion is only sure to end if it ends for each of them. -/
def repeats? (l : Loop) : (depth : Nat) → ValueId → Option Bool
  | 0, _ => none
  | k + 1, v =>
    if s.definedIn l v then
      match s.func.definition? v with
      | none => some false
      | some (_, _, i) => if i.isPure then allDecided (repeats? l k) i.uses else some false
    else some true

/-- Whether a value comes out the same in every round of a loop. There is no answer if the definitions go round in a
circle. -/
def isRepeated? (l : Loop) (v : ValueId) : Option Bool := s.repeats? l (s.func.instrs.length + 1) v

/-- The values that a block reads, each with the position where it is read. -/
def readsAt (b : BlockId) (blk : Block) : List (Position × ValueId) :=
  (blk.instrs.zipIdx.flatMap fun p => p.1.uses.map (⟨b, p.2⟩, ·)) ++ blk.term.uses.map (⟨b, blk.instrs.length⟩, ·)

/-- The values that a loop reads, each with the position where it is read. -/
def readsOf (l : Loop) : List (Position × ValueId) :=
  l.blocks.flatMap fun b => ((s.func.block? b).map (readsAt b)).getD []

/-- The dependences of reads on values that the first loop computes anew in every round. -/
def scalarHazards (l₁ : Loop) : List (Position × ValueId) → Option (List Dependence)
  | [] => some []
  | (sink, v) :: rest => do
    let repeated ← s.isRepeated? l₁ v
    let here := if repeated then none else s.func.definition? v
    return (here.map fun d => ⟨⟨d.1, d.2.1⟩, sink, .scalar, none⟩).toList ++ (← scalarHazards l₁ rest)

/-- The dependences through values that stand against fusion. -/
def scalarDependences (l₁ l₂ : Loop) : Option (List Dependence) := s.scalarHazards l₁ (s.readsOf l₂)

/-! ## All dependences -/

/-- The dependences that stand against fusion. -/
def dependences (l₁ l₂ : Loop) : Query (List Dependence) := do
  let throughMemory ← s.memoryDependences l₁ l₂
  let throughValues ← s.scalarDependences l₁ l₂
  return throughMemory ++ throughValues

/-- Whether nothing stands against fusion; what does is reported. -/
def isIndependent (l₁ l₂ : Loop) : Inquiry Bool := do
  let found ← Inquiry.ask (s.dependences l₁ l₂)
  Inquiry.take (Traced.notes .debug (found.map fun d => "  " ++ d.text))
  return found.isEmpty

end Snapshot

end SsaFusion
