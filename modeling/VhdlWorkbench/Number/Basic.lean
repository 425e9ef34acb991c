import VhdlWorkbench.Number.Dyadic

/-!
Numbers that are integers or floating-point numbers; a comparison of the two kinds is exact.
-/

namespace VhdlWorkbench

inductive Number where
  | int (n : Int)
  | real (x : Float)
deriving Repr

namespace Number

def toFloat : Number → Float
  | .int n => Float.ofInt n
  | .real x => x

/-- The exact value of a finite number: its sign and its magnitude as a fraction. -/
def fraction? : Number → Option (Bool × Nat × Nat)
  | .int n => some (n < 0, n.natAbs, 1)
  | .real x => (Dyadic.ofFloat? x).map fun d => (d.negative, d.fraction)

/-- `a < b`. -/
def lt : Number → Number → Bool
  | .int a, .int b => a < b
  | .real a, .real b => a < b
  | a, b =>
    match a.fraction?, b.fraction? with
    | some (aneg, an, ad), some (bneg, bn, bd) =>
      let left : Int := (if aneg then -1 else 1) * (an * bd : Nat)
      let right : Int := (if bneg then -1 else 1) * (bn * ad : Nat)
      left < right
    | _, _ => a.toFloat < b.toFloat

/-- The first of two numbers unless the second is smaller. -/
def min (a b : Number) : Number :=
  if b.lt a then b else a

/-- The first of two numbers unless the second is larger. -/
def max (a b : Number) : Number :=
  if a.lt b then b else a

/-- The value, but at most `hi` and then at least `lo`. -/
def clamp (value lo hi : Number) : Number :=
  (value.min hi).max lo

end Number

/-- The value, but at most `hi` and then at least `lo`; what is not a number stays. -/
def clampFloat (value lo hi : Float) : Float :=
  let low := if hi < value then hi else value
  if low < lo then lo else low

end VhdlWorkbench
