import VhdlWorkbench.Json.Basic
import VhdlWorkbench.Text.Integer
import VhdlWorkbench.Text.Lowercase

/-!
Numbers in texts, with decimal digits of any script and single underscores between digits.
-/

namespace VhdlWorkbench.Number

def readTail? (cs : List Char) : Option Int :=
  match cs with
  | [] => some 0
  | c :: rest =>
    if c == 'e' || c == 'E' then
      let (negative, rest) :=
        match rest with
        | '-' :: rest => (true, rest)
        | '+' :: rest => (false, rest)
        | _ => (false, rest)
      match Text.readDigits 0 0 rest with
      | (n, count, []) => if count = 0 then none else some (if negative then -(n : Int) else n)
      | _ => none
    else none

def readUnsigned? (negative : Bool) (cs : List Char) : Option Decimal :=
  let (whole, wholeCount, rest) := Text.readDigits 0 0 cs
  let (digits, fractionCount, rest) :=
    match rest with
    | '.' :: more =>
      let (value, count, rest) := Text.readDigits 0 0 more
      (whole * Nat.pow 10 count + value, count, rest)
    | _ => (whole, 0, rest)
  if wholeCount + fractionCount = 0 then none
  else (readTail? rest).map fun e => ⟨negative, digits, e - fractionCount⟩

def parseDecimal? (s : String) : Option Decimal :=
  match Text.trimNumber s with
  | '-' :: rest => readUnsigned? true rest
  | '+' :: rest => readUnsigned? false rest
  | cs => readUnsigned? false cs

/-- Hexadecimal digits, with single underscores before them and between them. -/
def readHexDigits? (value : Nat) : List Char → Option Nat
  | [] => some value
  | '_' :: c :: rest =>
    match Text.hexValue? c with
    | some d => readHexDigits? (value * 16 + d) rest
    | none => none
  | c :: rest =>
    match Text.hexValue? c with
    | some d => readHexDigits? (value * 16 + d) rest
    | none => none

def parseHex? (s : String) : Option Nat :=
  match Text.trimNumberRight s with
  | [] => none
  | cs => readHexDigits? 0 cs

def parseFloat? (s : String) : Option Float :=
  let cs := Text.trimNumber s
  let (negative, rest) :=
    match cs with
    | '-' :: rest => (true, rest)
    | '+' :: rest => (false, rest)
    | _ => (false, cs)
  let signed (x : Float) : Float := if negative then -x else x
  let word := Text.toLower (String.ofList rest)
  if word == "inf" || word == "infinity" then some (signed (1.0 / 0.0))
  else if word == "nan" then some (0.0 / 0.0)
  else (readUnsigned? negative rest).map Decimal.toFloat

end VhdlWorkbench.Number
