/-!
Caches that keep the answers used last, the most recent first.
-/

namespace VhdlWorkbench.Files

/-- Answers by keys, the most recent first. -/
structure Cache (κ α : Type) where
  entries : List (κ × α) := []

namespace Cache

variable {κ α : Type} [BEq κ]

def capacity : Nat := 32

def find? (c : Cache κ α) (key : κ) : Option α :=
  c.entries.lookup key

/-- Puts an answer in front, in place of the one that its key has. -/
def put (c : Cache κ α) (key : κ) (answer : α) : Cache κ α :=
  ⟨((key, answer) :: c.entries.filter fun entry => !(entry.1 == key)).take capacity⟩

def change (c : Cache κ α) (key : κ) (f : α → α) : Cache κ α :=
  ⟨c.entries.map fun entry => if entry.1 == key then (entry.1, f entry.2) else entry⟩

end Cache

end VhdlWorkbench.Files
