/-!
# Finite tables

A table binds keys to values. The bindings stand in the order in which their keys were first bound, and binding a key
again replaces its value in place. `get?_insert` and `get?_erase` say all that later modules use.
-/

namespace SsaFusion

/-- A finite map as a list of bindings in the order of first binding. -/
structure Table (κ α : Type) where
  entries : List (κ × α) := []
deriving DecidableEq, Inhabited

namespace Table

variable {κ α : Type} [DecidableEq κ]

/-- The value of the first binding of a key in a list of bindings. -/
def lookup (x : κ) : List (κ × α) → Option α
  | [] => none
  | (k, a) :: rest => if k = x then some a else lookup x rest

/-- A list of bindings with the value of a key replaced, or the binding added at the end. -/
def put (x : κ) (b : α) : List (κ × α) → List (κ × α)
  | [] => [(x, b)]
  | (k, a) :: rest => if k = x then (x, b) :: rest else (k, a) :: put x b rest

/-- The table without bindings. -/
def empty : Table κ α := ⟨[]⟩

/-- The value bound to a key. -/
def get? (t : Table κ α) (x : κ) : Option α := lookup x t.entries

/-- The table with a key bound to a value. -/
def insert (t : Table κ α) (x : κ) (b : α) : Table κ α := ⟨put x b t.entries⟩

/-- The table without any binding of a key. -/
def erase (t : Table κ α) (x : κ) : Table κ α := ⟨t.entries.filter (fun e => e.1 ≠ x)⟩

/-- The table with the given bindings added one after another. -/
def insertAll (t : Table κ α) (bs : List (κ × α)) : Table κ α := bs.foldl (fun t b => t.insert b.1 b.2) t

/-- The table of a list of bindings, where later bindings win. -/
def ofList (bs : List (κ × α)) : Table κ α := insertAll empty bs

@[simp] theorem get?_empty (x : κ) : (empty : Table κ α).get? x = none := rfl

/-- Binding a key changes the value of that key only. -/
theorem get?_insert (t : Table κ α) (x y : κ) (b : α) :
    (t.insert x b).get? y = if x = y then some b else t.get? y := by
  obtain ⟨es⟩ := t
  simp only [insert, get?]
  induction es with
  | nil => simp [put, lookup]
  | cons e rest ih => grind [put, lookup]

/-- Erasing a key unbinds that key only. -/
theorem get?_erase (t : Table κ α) (x y : κ) :
    (t.erase x).get? y = if x = y then none else t.get? y := by
  obtain ⟨es⟩ := t
  simp only [erase, get?]
  induction es with
  | nil => simp [lookup]
  | cons e rest ih => grind [lookup]

end Table

end SsaFusion
