/-!
JSON values. Objects keep the order of their members, and numbers what their spelling says.
-/

namespace VhdlWorkbench

/-- The number `± digits · 10 ^ exponent`. -/
structure Decimal where
  negative : Bool
  digits : Nat
  exponent : Int
deriving DecidableEq, Repr

/-- The floating-point number nearest to a decimal; a decimal beyond the range is infinite or zero. -/
def Decimal.toFloat (d : Decimal) : Float :=
  let size : Int := (Nat.toDigits 10 d.digits).length + d.exponent
  let magnitude :=
    if d.digits = 0 || size < -330 then 0.0
    else if 310 < size then 1.0 / 0.0
    else Float.ofScientific d.digits (d.exponent < 0) d.exponent.natAbs
  if d.negative then -magnitude else magnitude

inductive Json where
  | null
  | bool (b : Bool)
  | int (n : Int)
  | decimal (d : Decimal)
  /-- A number that no decimal writes: infinite, or not a number. -/
  | nonfinite (x : Float)
  | text (s : String)
  | list (items : List Json)
  | object (members : List (String × Json))
deriving Repr, BEq

namespace Json

def members : Json → List (String × Json)
  | .object members => members
  | _ => []

def get? (j : Json) (key : String) : Option Json :=
  j.members.lookup key

def items : Json → List Json
  | .list items => items
  | _ => []

def text? : Json → Option String
  | .text s => some s
  | _ => none

/-- A value counts as true unless it is null, false, zero or empty. -/
def isTrue : Json → Bool
  | .null => false
  | .bool b => b
  | .int n => n != 0
  | .decimal d => d.toFloat != 0.0
  | .nonfinite _ => true
  | .text s => !s.isEmpty
  | .list items => !items.isEmpty
  | .object members => !members.isEmpty

end Json

end VhdlWorkbench
