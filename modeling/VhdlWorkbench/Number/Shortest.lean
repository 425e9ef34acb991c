import VhdlWorkbench.Json.Basic
import VhdlWorkbench.Number.Dyadic

/-!
Floating-point numbers in writing, with as few digits as tell them from every other one.
-/

namespace VhdlWorkbench

/-- The place of the first digit of a positive fraction: `k` with `10 ^ (k - 1) ≤ num / den < 10 ^ k`.
The fuel bounds the number of zeros behind the point. -/
def leadingPlace (num den : Nat) : Nat → Int
  | 0 => 0
  | fuel + 1 =>
    if den ≤ num then ((Nat.toDigits 10 (num / den)).length : Int)
    else leadingPlace (num * 10) den fuel - 1

/-- A fraction rounded to a multiple of `10 ^ place`, ties to even. -/
def roundToPlace (num den : Nat) (place : Int) : Nat :=
  let (a, b) :=
    if 0 ≤ place then (num, den * Nat.pow 10 place.natAbs) else (num * Nat.pow 10 place.natAbs, den)
  let q := a / b
  if b < 2 * (a % b) || (2 * (a % b) == b && q % 2 == 1) then q + 1 else q

/-- The first of the roundings to more and more digits that gives the number back. -/
def shortestDecimal (x : Float) (d : Dyadic) : Decimal :=
  let (num, den) := d.fraction
  let lead := leadingPlace num den 400
  let candidate (n : Nat) : Decimal :=
    let place := lead - (n : Int)
    ⟨d.negative, roundToPlace num den place, place⟩
  (((List.range 17).map fun n => candidate (n + 1)).find? fun c => c.toFloat == x).getD (candidate 17)

/-- Digits with the point behind the first `point` of them, in writing. -/
def placePoint (digits : List Char) (point : Int) : List Char :=
  let size : Int := digits.length
  if -4 < point && point ≤ 16 then
    if point ≤ 0 then '0' :: '.' :: (List.replicate point.natAbs '0' ++ digits)
    else if size ≤ point then digits ++ List.replicate (point - size).natAbs '0' ++ ['.', '0']
    else digits.take point.natAbs ++ '.' :: digits.drop point.natAbs
  else
    let exponent := point - 1
    let ciphers := Nat.toDigits 10 exponent.natAbs
    digits.take 1 ++ (if size ≤ 1 then [] else '.' :: digits.drop 1) ++
      ['e', if exponent < 0 then '-' else '+'] ++ List.replicate (2 - ciphers.length) '0' ++ ciphers

def floatText (x : Float) : String :=
  match Dyadic.ofFloat? x with
  | none => if x.isNaN then "nan" else if x < 0.0 then "-inf" else "inf"
  | some d =>
    let sign := if d.negative then "-" else ""
    if d.mantissa = 0 then sign ++ "0.0"
    else
      let c := shortestDecimal x d
      let digits := Nat.toDigits 10 c.digits
      let kept := (digits.reverse.dropWhile (· == '0')).reverse
      sign ++ String.ofList (placePoint kept (digits.length + c.exponent))

end VhdlWorkbench
