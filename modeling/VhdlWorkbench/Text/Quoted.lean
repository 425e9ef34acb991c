import VhdlWorkbench.Text.Printable

/-!
Quoted texts, with escapes for characters that are not printable.
-/

namespace VhdlWorkbench.Text

/-- The lower-case hexadecimal digits of a number, at least `width` of them. -/
def hexDigits (width n : Nat) : List Char :=
  let digits := Nat.toDigits 16 n
  List.replicate (width - digits.length) '0' ++ digits

/-- The form of one character between the quotes `quote`. -/
def quoteChar (quote c : Char) : List Char :=
  if c == '\\' || c == quote then ['\\', c]
  else if c == '\n' then ['\\', 'n']
  else if c == '\r' then ['\\', 'r']
  else if c == '\t' then ['\\', 't']
  else if isPrintable c then [c]
  else
    let n := c.toNat
    if n < 256 then '\\' :: 'x' :: hexDigits 2 n
    else if n < 65536 then '\\' :: 'u' :: hexDigits 4 n
    else '\\' :: 'U' :: hexDigits 8 n

def quoteFor (s : String) : Char :=
  if s.toList.contains '\x27' && !s.toList.contains '"' then '"' else '\x27'

def quoted (s : String) : String :=
  let quote := quoteFor s
  String.ofList (quote :: s.toList.flatMap (quoteChar quote) ++ [quote])

end VhdlWorkbench.Text
