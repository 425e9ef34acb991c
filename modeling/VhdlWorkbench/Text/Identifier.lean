import VhdlWorkbench.Text.Alphanumeric

/-!
Identifiers with the characters of every script, from code point 128 on by tables.
-/

namespace VhdlWorkbench.Text

/-- The alphanumeric code points outside ASCII that begin no identifier, most of them numerals. -/
def numeralRanges : List (Nat × Nat) :=
  rangesFrom 0
    [178,1,6,0,3,2,700,0,742,9,135,9,199,9,413,9,119,9,5,5,109,9,119,9,119,9,3,5,111,12,116,9,9,6,104,9,105,6,8,18,
     110,9,68,0,29,9,90,0,29,9,71,19,269,9,71,9,720,19,1124,9,7,9,23,9,301,9,129,10,166,9,7,9,183,9,87,9,135,9,7,9,
     1047,0,4,5,7,9,199,15,42,0,727,59,79,21,631,29,1386,0,306,0,867,3,139,9,31,7,2,14,33,9,40,14,29537,9,519,5,155,9,
     39,9,199,9,23,9,87,9,407,9,20581,5,407,1,117,0,2,0,2,0,2,0,2,0,2,0,2,0,2,0,146,9,133,1,360,44,66,3,18,1,342,26,
     37,3,381,9,943,7,26,6,40,8,76,4,23,5,161,1,3,15,3,45,65,8,53,1,31,2,76,4,105,7,25,7,42,6,331,5,49,9,295,30,159,9,
     43,3,113,6,135,29,129,9,61,9,145,9,8,19,252,9,343,9,119,9,375,9,103,9,103,11,421,18,94,9,759,28,228,9,71,9,535,
     20,19084,9,87,9,135,9,2,6,799,22,25674,19,109,24,1110,49,2369,9,423,9,1486,8,129,9,792,58,2,2,2,3,77,44,2,14,963,
     12,2788,9]

/-- The code points outside ASCII that are not alphanumeric but may begin an identifier. -/
def otherStartRanges : List (Nat × Nat) :=
  [(6277, 6278), (8472, 8472), (8494, 8494)]

/-- The code points outside ASCII that may stand in an identifier behind its first character only, in
increasing order. -/
def identifierInnerRanges : List (Nat × Nat) :=
  rangesFrom 0
    [183,0,585,111,24,0,252,4,266,44,2,0,2,1,2,1,2,0,73,10,49,30,7,0,102,6,3,5,3,1,2,3,3,9,24,0,31,26,92,10,16,9,34,8,
     10,0,25,3,2,8,2,2,2,4,44,2,61,7,43,23,2,32,55,2,2,17,2,6,11,1,3,9,18,2,57,0,2,6,3,1,3,2,10,0,11,1,3,9,15,0,3,2,
     57,0,2,4,5,1,3,2,4,0,21,11,4,0,12,2,57,0,2,7,2,2,2,2,21,1,3,9,11,5,2,2,57,0,2,6,3,1,3,2,8,2,11,1,3,9,19,0,60,4,4,
     2,2,3,10,0,15,9,17,4,56,0,2,6,2,2,2,3,8,1,12,1,3,9,18,2,57,0,2,6,2,2,2,3,8,1,12,1,3,9,17,3,56,1,2,6,2,2,2,3,10,0,
     11,1,3,9,18,2,71,0,5,5,2,0,2,7,7,9,3,1,62,0,2,7,13,7,2,9,88,0,2,9,12,5,3,9,63,1,7,9,12,0,2,0,2,0,5,1,50,19,2,1,6,
     10,2,35,10,0,101,19,2,9,13,3,5,2,2,2,3,6,4,3,14,11,2,14,704,2,10,8,929,3,29,2,30,1,31,1,65,31,10,0,3,9,34,2,2,10,
     144,0,119,11,5,11,11,9,129,10,61,4,58,9,2,28,3,10,7,9,23,13,2,15,50,4,48,16,12,9,18,8,13,2,31,12,3,9,45,13,49,19,
     9,9,7,9,119,2,2,20,5,0,7,0,3,2,199,63,576,1,20,0,124,12,5,0,4,11,3071,2,142,0,97,31,555,5,106,1,30086,9,70,0,5,9,
     33,1,81,1,273,0,4,0,5,0,24,4,5,0,84,1,51,17,11,9,7,17,14,10,29,7,26,12,45,3,48,13,16,9,12,0,11,9,48,13,13,0,9,1,
     3,9,34,2,51,0,2,2,3,1,6,1,2,0,42,4,6,1,237,7,2,1,3,9,20261,0,738,15,17,15,4,1,25,2,193,9,38,0,95,1,606,0,227,0,
     150,4,294,9,1368,2,2,1,6,3,41,2,5,0,166,1,574,3,9,9,370,1,154,10,50,3,123,2,54,14,32,10,3,1,11,3,46,10,8,0,46,9,
     7,2,37,13,2,9,6,1,45,0,13,2,49,13,9,3,2,11,83,11,7,0,161,11,6,9,7,3,56,1,2,6,3,1,3,2,10,0,11,1,3,6,4,4,193,17,10,
     9,5,0,82,19,13,9,214,6,3,8,28,1,83,16,16,9,82,12,9,9,84,14,5,9,243,14,166,9,71,5,2,1,3,3,2,0,2,1,13,9,120,6,3,6,
     4,0,29,9,41,6,2,3,9,0,10,10,47,15,406,7,2,7,17,9,57,21,2,13,123,5,4,0,2,1,2,6,2,0,9,9,49,4,2,1,2,4,9,9,330,3,
     19306,9,87,9,39,4,60,6,26,9,1014,0,2,54,8,3,82,0,12,1,19628,1,4706,45,3,22,543,4,4,5,9,7,3,6,31,3,149,2,1418,49,
     513,54,5,49,9,0,15,0,23,4,2,14,1361,6,2,16,3,6,2,1,2,4,262,6,10,9,357,0,62,13,1495,6,110,6,6,9,4759,9,787719,239]

def startsIdentifier (c : Char) : Bool :=
  if c.toNat < 128 then c.isAlpha || c == '_'
  else isAlphanumeric c && !inRanges numeralRanges c.toNat || inRanges otherStartRanges c.toNat

/-- A character that may stand in an identifier behind its first character. -/
def continuesIdentifier (c : Char) : Bool :=
  startsIdentifier c ||
    if c.toNat < 128 then c.isDigit else inRanges identifierInnerRanges c.toNat

/-- An identifier: its first character may begin one and the others may continue it. -/
def isIdentifier : List Char → Bool
  | [] => false
  | c :: rest => startsIdentifier c && rest.all continuesIdentifier

end VhdlWorkbench.Text
