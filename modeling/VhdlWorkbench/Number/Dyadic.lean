/-!
Floating-point numbers as exact fractions, from their bits.
-/

namespace VhdlWorkbench

structure Dyadic where
  negative : Bool
  mantissa : Nat
  exponent : Int
deriving DecidableEq, Repr

namespace Dyadic

/-- The exact value of a finite floating-point number. -/
def ofFloat? (x : Float) : Option Dyadic :=
  let bits : Nat := x.toBits.toNat
  let negative := bits / Nat.pow 2 63 == 1
  let exponent : Nat := bits / Nat.pow 2 52 % 2048
  let fraction : Nat := bits % Nat.pow 2 52
  if exponent = 2047 then none
  else if exponent = 0 then some ⟨negative, fraction, -1074⟩
  else some ⟨negative, fraction + Nat.pow 2 52, (exponent : Int) - 1075⟩

def fraction (d : Dyadic) : Nat × Nat :=
  if 0 ≤ d.exponent then (d.mantissa * Nat.pow 2 d.exponent.natAbs, 1)
  else (d.mantissa, Nat.pow 2 d.exponent.natAbs)

def wholePart (d : Dyadic) : Nat :=
  d.fraction.1 / d.fraction.2

/-- The signed integer part, rounded toward zero. -/
def truncate (d : Dyadic) : Int :=
  if d.negative then -(d.wholePart : Int) else d.wholePart

end Dyadic

/-- The remainder of a division with the sign of the divisor; the divisor is finite and positive. The
remainder is exact. -/
def floatMod (x divisor : Float) : Float :=
  match Dyadic.ofFloat? x, Dyadic.ofFloat? divisor with
  | some a, some b =>
    let e := min a.exponent b.exponent
    let top := a.mantissa * Nat.pow 2 (a.exponent - e).natAbs
    let bottom := b.mantissa * Nat.pow 2 (b.exponent - e).natAbs
    let rest := (Float.ofNat (top % bottom)).scaleB e
    if rest == 0.0 then 0.0 else if a.negative then divisor - rest else rest
  | _, _ => 0.0 / 0.0

end VhdlWorkbench
