/-!
Tables: lists of keys with values, in the order in which the keys came in.
-/

namespace VhdlWorkbench.Table

variable {κ α : Type} [BEq κ]

/-- Puts an entry at the end, or in place of the entry with its key. -/
def put (table : List (κ × α)) (key : κ) (value : α) : List (κ × α) :=
  if table.any (·.1 == key) then
    table.map fun entry => if entry.1 == key then (key, value) else entry
  else table ++ [(key, value)]

def erase (table : List (κ × α)) (key : κ) : List (κ × α) :=
  table.filter fun entry => !(entry.1 == key)

def putAll (key : α → κ) (table : List (κ × α)) (values : List α) : List (κ × α) :=
  values.foldl (fun table value => put table (key value) value) table

end VhdlWorkbench.Table
