/-!
Decimal digits of every script, from the code points of the zeros.
-/

namespace VhdlWorkbench.Text

def zeros : List Nat :=
  [1632,1776,1984,2406,2534,2662,2790,2918,3046,3174,3302,3430,3558,3664,3792,3872,4160,4240,6112,6160,6470,6608,6784,
   6800,6992,7088,7232,7248,42528,43216,43264,43472,43504,43600,44016,65296,66720,68912,69734,69872,69942,70096,70384,
   70736,70864,71248,71360,71472,71904,72016,72784,73040,73120,92768,92864,93008,120782,120792,120802,120812,120822,
   123200,123632,125264,130032]

def digitValue? (c : Char) : Option Nat :=
  let n := c.toNat
  if 48 ≤ n && n ≤ 57 then some (n - 48)
  else if n < 128 then none
  else (zeros.find? fun z => z ≤ n && n ≤ z + 9).map (n - ·)

def isDigit (c : Char) : Bool :=
  (digitValue? c).isSome

def hexValue? (c : Char) : Option Nat :=
  let n := c.toNat
  if 97 ≤ n && n ≤ 102 then some (n - 87)
  else if 65 ≤ n && n ≤ 70 then some (n - 55)
  else digitValue? c

end VhdlWorkbench.Text
