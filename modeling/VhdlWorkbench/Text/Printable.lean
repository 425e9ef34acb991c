import VhdlWorkbench.Text.Identifier

/-!
Characters that a quoted text shows as themselves, from code point 128 on by a table.
-/

namespace VhdlWorkbench.Text

/-- The other printable code points outside ASCII, in increasing order. -/
def symbolRanges : List (Nat × Nat) :=
  rangesFrom 0
    [161,8,2,1,2,3,3,0,2,0,2,0,3,0,4,0,24,0,32,0,459,3,13,13,6,6,2,0,2,16,118,0,9,0,6,1,113,0,140,0,6,1,209,5,42,1,3,
     2,47,0,2,0,3,0,3,0,45,1,18,9,12,0,2,2,75,3,103,0,10,0,11,0,20,1,2,13,233,3,5,1,49,14,32,0,42,0,220,1,11,0,130,1,
     7,1,2,0,121,0,122,1,127,0,131,7,125,0,8,0,5,0,203,0,42,0,123,0,75,0,16,0,11,1,166,22,3,5,21,0,2,0,2,0,2,3,72,0,
     57,7,2,5,2,12,112,5,79,1,92,0,613,8,40,9,103,0,621,1,45,1,79,2,72,1,158,2,2,3,37,10,123,1,186,0,4,1,153,33,31,1,
     129,6,2,5,17,0,156,16,10,10,126,3,60,4,63,1,65,7,12,0,746,0,2,2,12,2,14,2,14,2,14,1,18,23,9,14,3,18,2,9,28,4,12,
     4,18,32,29,3,2,2,28,1,2,3,2,1,11,0,2,2,6,5,2,0,2,0,2,0,5,0,12,1,5,4,6,3,2,0,59,1,5,662,26,10,82,77,23,629,31,991,
     3,31,2,104,230,5,15,3,2,1,113,0,144,46,2,45,35,25,2,88,13,213,27,11,6,3,4,24,16,0,6,1,6,2,92,1,4,0,91,0,149,1,5,
     9,33,35,29,30,12,29,9,0,16,31,11,38,16,319,6593,63,22161,54,56,1,270,2,97,3,11,0,116,5,9,22,10,1,104,1,158,3,11,
     3,59,3,87,1,41,2,2,0,50,1,48,0,98,12,17,1,125,3,24,2,101,1,17,1,106,0,15,1,128,0,20286,0,137,16,380,17,128,0,45,
     3,17,9,23,2,3,23,4,2,2,18,2,3,150,14,11,6,27,3,2,0,27,10,123,6,2,6,14,1,259,2,53,8,58,16,3,2,2,12,4,0,48,44,419,
     0,49,0,415,0,744,0,32,1,167,0,32,0,273,8,39,0,73,0,40,6,67,6,90,3,785,0,168,4,45,3,190,6,110,1,2,3,127,3,49,1,80,
     3,5,0,14,0,2,2,89,5,108,0,418,4,11,1,2,0,105,0,251,22,106,2,29,12,77,0,131,3,252,0,265,2,156,0,93,7,84,2,2,4,415,
     4,43,1,646,1,221,28,14,0,1137,4,2941,1,14972,1,134,0,66,8,5,1,850,3,328,0,19642,0,3,0,4785,115,61,245,11,38,3,59,
     6,2,23,1,8,29,5,60,22,65,4,0,187,86,875,0,26,0,32,0,26,0,32,0,26,0,32,0,26,0,32,0,26,0,61,511,56,3,51,7,2,13,2,6,
     1732,0,432,0,1631,1,845,0,4,0,126,0,450,1,271,43,5,99,13,14,3,14,2,14,2,36,24,160,57,28,14,43,5,8,8,1,15,5,155,
     983,6,15,4,12,4,115,13,88,8,11,5,0,16,11,5,55,9,9,7,39,9,29,3,1,79,339,13,13,3,4,4,4,4,6,10,28,4,10,6,5,11,9,7,7,
     9,6,10,146,2,54]

def isPrintable (c : Char) : Bool :=
  let n := c.toNat
  if n < 128 then 32 ≤ n && n < 127
  else isAlphanumeric c || inRanges identifierInnerRanges n || inRanges symbolRanges n

end VhdlWorkbench.Text
