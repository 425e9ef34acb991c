import VhdlWorkbench.Fault
import VhdlWorkbench.Number.Basic

/-!
Rounding to a number of decimal places; a result of more than 28 digits is refused.
-/

namespace VhdlWorkbench

/-- Where a value halfway between two neighbours goes. -/
inductive Tie where
  | towardZero
  | awayFromZero
deriving DecidableEq, Repr

def roundDiv (tie : Tie) (num den : Nat) : Nat :=
  let q := num / den
  let r := num % den
  if den < 2 * r || (2 * r == den && tie == .awayFromZero) then q + 1 else q

/-- A number rounded to `places` decimal places: its sign and the multiple of the last place. -/
def quantize (tie : Tie) (places : Nat) (x : Number) : Except Fault (Bool × Nat) :=
  match x.fraction? with
  | none => .error (if x.toFloat.isNaN then .badValue else .tooManyDigits)
  | some (negative, num, den) =>
    let n := roundDiv tie (num * Nat.pow 10 places) den
    if Nat.pow 10 28 ≤ n then .error .tooManyDigits else .ok (negative, n)

/-- The nearest integer, ties toward zero. -/
def roundInt (x : Number) : Except Fault Int := do
  let (negative, n) ← quantize .towardZero 0 x
  return if negative then -(n : Int) else n

def roundFloat (x : Float) : Except Fault Int :=
  roundInt (.real x)

/-- The integer part of a floating-point number, which has to be finite. -/
def truncateFloat (x : Float) : Except Fault Int :=
  match Dyadic.ofFloat? x with
  | some d => .ok d.truncate
  | none => .error (if x.isNaN then .badValue else .tooLarge)

def digitsOf (n : Nat) : String :=
  String.ofList (Nat.toDigits 10 n)

/-- A multiple of the last of `places` decimal places in writing: positional, unless more than five
zeros would stand behind the point before the first digit. -/
def renderPlaces (places : Nat) (negative : Bool) (n : Nat) : String :=
  let digits := Nat.toDigits 10 n
  let sign := if negative then "-" else ""
  let point : Int := (digits.length : Int) - places
  if places = 0 then sign ++ String.ofList digits
  else if 0 < point then
    sign ++ String.ofList (digits.take point.toNat) ++ "." ++ String.ofList (digits.drop point.toNat)
  else if -6 < point then
    sign ++ "0." ++ String.ofList (List.replicate point.natAbs '0' ++ digits)
  else
    let exponent := "E-" ++ digitsOf (1 - point).toNat
    match digits with
    | [] => sign ++ exponent
    | [d] => sign ++ String.ofList [d] ++ exponent
    | d :: more => sign ++ String.ofList (d :: '.' :: more) ++ exponent

def trimZeros (s : String) : String :=
  let whole := s.toList.takeWhile Char.isDigit
  match s.toList.drop whole.length with
  | '.' :: fraction =>
    let kept := (fraction.reverse.dropWhile (· == '0')).reverse
    if whole.isEmpty || fraction.isEmpty || !fraction.all Char.isDigit then s
    else if kept.isEmpty then String.ofList whole
    else String.ofList (whole ++ '.' :: kept)
  | _ => s

/-- A number with at most `places` decimal places, ties away from zero. -/
def formatPlaces (places : Int) (x : Number) : Except Fault String :=
  let places := places.toNat
  if x.toFloat.isNaN then .ok "NaN"
  else
    match quantize .awayFromZero places x with
    | .error f => .error f
    | .ok (negative, n) => .ok (trimZeros (renderPlaces places negative n))

end VhdlWorkbench
