/-!
Columns of a window: one is added at the right end by moving the places before it to the left.
-/

namespace VhdlWorkbench.Outline

variable {α : Type} [Add α] [Sub α] [Mul α]

/-- Moves each place but the first to the left by its number times a step. -/
def squeeze (ofNat : Nat → α) (step : α) (places : List α) : List α :=
  places.zipIdx.map fun (place, n) => if n = 0 then place else place - ofNat n * step

/-- Moves each place but the first to the right by its number times a step. -/
def stretch (ofNat : Nat → α) (step : α) (places : List α) : List α :=
  places.zipIdx.map fun (place, n) => if n = 0 then place else place + ofNat n * step

/-- The places with a further column of a width at the right end, which is at 1. The width is
shared among the columns. -/
def addColumn [Div α] (ofNat : Nat → α) (width : α) (places : List α) : List α :=
  squeeze ofNat (width / (ofNat places.length - ofNat 1)) places ++ [ofNat 1]

end VhdlWorkbench.Outline
