import SsaFusion.IR.Func

/-!
# Printed form

Operands, instructions, blocks and functions as text, one instruction or terminator a line, indented by two blanks a
level.
-/

namespace SsaFusion

/-- A text repeated. -/
def repeated (s : String) : Nat → String
  | 0 => ""
  | n + 1 => s ++ repeated s n

/-- The blanks in front of a line. -/
def indentation (level : Nat) : String := repeated "  " level

/-- A text made for a level, if the blanks in front of its lines fit in a text, whose number of bytes is a word. -/
def atLevel? (text : Nat → String) (level : Nat) : Option String :=
  if 2 * level ≤ Word.greatest then some (text level) else none

/-- Texts with a separator between each two. -/
def joined (sep : String) (ts : List String) : String := sep.intercalate ts

/-- A list of numbers in brackets. -/
def bracketed (ns : List Nat) : String := "[" ++ joined ", " (ns.map toString) ++ "]"

def Literal.text : Literal → String
  | int n => n.text
  | bool b => if b then "true" else "false"

/-- A value by its number. -/
def valueText (v : ValueId) : String := "%" ++ toString v

/-- A block by its number. -/
def blockText (b : BlockId) : String := "bb" ++ toString b

def Operand.text : Operand → String
  | lit l => l.text
  | var v => valueText v

def BinOp.symbol : BinOp → String
  | add => "+"
  | sub => "-"
  | mul => "*"
  | div => "/"
  | rem => "%"
  | eq => "=="
  | ne => "!="
  | lt => "<"
  | le => "<="
  | gt => ">"
  | ge => ">="
  | and => "&&"
  | or => "||"

def UnOp.symbol : UnOp → String
  | neg => "-"
  | not => "!"

def Op.text : Op → String
  | assign d s => valueText d ++ " = " ++ s.text
  | unary op d s => valueText d ++ " = " ++ op.symbol ++ s.text
  | binary op d l r => valueText d ++ " = " ++ l.text ++ " " ++ op.symbol ++ " " ++ r.text
  | phi d sources =>
    valueText d ++ " = phi [" ++ joined ", " (sources.map fun s => blockText s.1 ++ ": " ++ s.2.text) ++ "]"
  | alloc d n => valueText d ++ " = framealloc " ++ toString n
  | shift d b o => valueText d ++ " = getelementptr " ++ b.text ++ ", " ++ o.text
  | load d a => valueText d ++ " = load " ++ a.text
  | store a v => "store " ++ a.text ++ ", " ++ v.text
  | nop => "nop"

def Instr.text (i : Instr) : String :=
  match i.comment with
  | some c => i.op.text ++ " // " ++ c
  | none => i.op.text

def Terminator.text : Terminator → String
  | jump t => "jump " ++ blockText t
  | branch c t e => "if " ++ c.text ++ " then jump " ++ blockText t ++ " else jump " ++ blockText e
  | ret [] => "return"
  | ret vs => "return " ++ joined ", " (vs.map Operand.text)
  | unreachable => "unreachable"

def Block.text (b : Block) (level : Nat) : String :=
  let line (s : String) : String := indentation level ++ s ++ "\n"
  String.join (b.instrs.map fun i => line i.text) ++ line b.term.text

/-- The line that opens a block. -/
def Block.title (b : Block) (n : BlockId) : String :=
  match b.name with
  | some name => blockText n ++ " (" ++ name ++ "):"
  | none => blockText n ++ ":"

def Func.text (f : Func) (level : Nat) : String :=
  let margin := indentation level
  margin ++ "fn " ++ f.name ++ "(" ++ joined ", " (f.params.map valueText) ++ ") \x7b\n"
    ++ String.join (f.numbered.map fun (b, n) => margin ++ "  " ++ b.title n ++ "\n" ++ b.text (level + 2))
    ++ margin ++ "\x7d\n"

end SsaFusion
