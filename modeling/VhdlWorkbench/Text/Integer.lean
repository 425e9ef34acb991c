import VhdlWorkbench.Text.Blank
import VhdlWorkbench.Text.Digit

/-!
Integers in texts, with decimal digits of any script; one of more than 4300 digits is refused.
-/

namespace VhdlWorkbench.Text

def isNumberBlank (c : Char) : Bool :=
  isBlank c && !(28 ≤ c.toNat && c.toNat ≤ 31)

def trimNumberRight (s : String) : List Char :=
  (s.toList.reverse.dropWhile isNumberBlank).reverse

def trimNumber (s : String) : List Char :=
  (trimNumberRight s).dropWhile isNumberBlank

/-- Digits, with single underscores between them, and what follows; the value and the number of digits
read so far come first. -/
def readDigits (value count : Nat) : List Char → Nat × Nat × List Char
  | [] => (value, count, [])
  | '_' :: c :: rest =>
    match (if count = 0 then none else digitValue? c) with
    | some d => readDigits (value * 10 + d) (count + 1) rest
    | none => (value, count, '_' :: c :: rest)
  | c :: rest =>
    match digitValue? c with
    | some d => readDigits (value * 10 + d) (count + 1) rest
    | none => (value, count, c :: rest)

def maxDigits : Nat :=
  4300

def integer? (s : String) : Option Int :=
  let (negative, rest) :=
    match trimNumber s with
    | '-' :: rest => (true, rest)
    | '+' :: rest => (false, rest)
    | cs => (false, cs)
  match readDigits 0 0 rest with
  | (n, count, []) =>
    if count = 0 || maxDigits < count then none else some (if negative then -(n : Int) else n)
  | _ => none

end VhdlWorkbench.Text
