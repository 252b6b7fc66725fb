import SsaFusion.Data.Table
import SsaFusion.IR.Text
import SsaFusion.Validity

/-!
# Programs

A program is a list of functions together with a table from names to functions. The table is kept beside the names that
the functions carry, so that the two can disagree; a valid program's table and functions do not.
-/

namespace SsaFusion

/-- Functions of a program are numbered from zero. -/
abbrev FuncId := Nat

/-- A list of functions that can also be found by name. -/
structure Program where
  funcs : List Func := []
  names : Table String FuncId := {}
deriving DecidableEq, Inhabited

/-- What can be wrong with a program. -/
inductive ProgramDefect where
  | danglingName (name : String) (id : FuncId)
  | nameMismatch (expected found : String)
  | duplicateName (name : String)
  | invalidFunction (name : String) (defect : Defect)
deriving DecidableEq, Inhabited

def ProgramDefect.message : ProgramDefect → String
  | danglingName n id => "function name map points '" ++ n ++ "' at missing function " ++ toString id
  | nameMismatch e n => "function name mismatch: map has '" ++ e ++ "', function has '" ++ n ++ "'"
  | duplicateName n => "duplicate function name '" ++ n ++ "'"
  | invalidFunction n d => "function '" ++ n ++ "' is invalid: " ++ d.message

namespace Program

variable (p : Program)

/-- Adds a function under its own name and gives its number. -/
def add (f : Func) : FuncId × Program :=
  (p.funcs.length, { funcs := p.funcs ++ [f], names := p.names.insert f.name p.funcs.length })

def func? (id : FuncId) : Option Func := p.funcs[id]?

def lookup (name : String) : Option FuncId := p.names.get? name

/-- Points a name at a function and gives the function it pointed at. -/
def mapName (name : String) (id : FuncId) : Option FuncId × Program :=
  (p.lookup name, { p with names := p.names.insert name id })

/-- Forgets a name and gives the function it pointed at. -/
def unmapName (name : String) : Option FuncId × Program :=
  (p.lookup name, { p with names := p.names.erase name })

/-- Changes the name that a function carries. -/
def rename (id : FuncId) (name : String) : Program :=
  { p with funcs := p.funcs.modify id fun f => { f with name } }

/-- The defect of an entry of the table of names. -/
def nameDefect? (name : String) (id : FuncId) : Option ProgramDefect :=
  match p.func? id with
  | none => some (.danglingName name id)
  | some f => if f.name = name then none else some (.nameMismatch name f.name)

/-- The first defect of a program. -/
def defect? : Option ProgramDefect :=
  (p.names.entries.findSome? fun e => p.nameDefect? e.1 e.2)
  <|> ((firstRepeat [] (p.funcs.map Func.name)).map .duplicateName)
  <|> (p.funcs.findSome? fun f => f.defect?.map (.invalidFunction f.name))

def text (level : Nat) : String :=
  let margin := indentation level
  margin ++ "module \x7b\n"
    ++ String.join (p.funcs.zipIdx.map fun (f, n) =>
      margin ++ "  // Function " ++ toString n ++ "\n" ++ f.text (level + 1) ++ "\n")
    ++ margin ++ "\x7d\n"

end Program

end SsaFusion
