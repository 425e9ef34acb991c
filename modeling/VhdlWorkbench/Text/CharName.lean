import VhdlWorkbench.Text.CharName.Basic
import VhdlWorkbench.Text.CodeRange

/-!
Characters by their names, from a table or made of letters of Korean syllables and code points of ideographs.
-/

namespace VhdlWorkbench.Text

def afterStem? (stem : String) (cs : List Char) : Option (List Char) :=
  if stem.toList.isPrefixOf cs then some (cs.drop stem.length) else none

def leadingConsonants : List String :=
  ["G", "GG", "N", "D", "DD", "R", "M", "B", "BB", "S", "SS", "", "J", "JJ", "C", "K", "T", "P", "H"]

def syllableVowels : List String :=
  ["A", "AE", "YA", "YAE", "EO", "E", "YEO", "YE", "O", "WA", "WAE", "OE", "YO", "U", "WEO", "WE",
   "WI", "YU", "EU", "YI", "I"]

def trailingConsonants : List String :=
  ["", "G", "GG", "GS", "N", "NJ", "NH", "D", "L", "LG", "LM", "LB", "LS", "LT", "LP", "LH", "M",
   "B", "BS", "S", "SS", "NG", "J", "C", "K", "T", "P", "H"]

/-- The longest of the letters that the text begins with: its index and the rest of the text. -/
def longestLetter? (letters : List String) (cs : List Char) : Option (Nat × List Char) :=
  let fitting := letters.zipIdx.filter fun (letter, _) => letter.toList.isPrefixOf cs
  let longest := fitting.foldl (fun best (letter, i) =>
    match best with
    | some (n, _) => if n < letter.length then some (letter.length, i) else best
    | none => some (letter.length, i)) none
  longest.map fun (n, i) => (i, cs.drop n)

def syllableNamed? (cs : List Char) : Option Nat := do
  let (l, cs) ← longestLetter? leadingConsonants cs
  let (v, cs) ← longestLetter? syllableVowels cs
  let (t, cs) ← longestLetter? trailingConsonants cs
  if cs.isEmpty then some (0xAC00 + (l * 21 + v) * 28 + t) else none

def ideographRanges : List (Nat × Nat) :=
  [(0x3400, 0x4DBF), (0x4E00, 0x9FFF), (0x20000, 0x2A6DF), (0x2A700, 0x2B738), (0x2B740, 0x2B81D),
   (0x2B820, 0x2CEA1), (0x2CEB0, 0x2EBE0), (0x30000, 0x3134A)]

/-- The unified ideograph with a code point in four or five digits. -/
def ideographNamed? (digits : List Char) : Option Nat := do
  let n ← capitalHex? digits
  if (digits.length == 4 || digits.length == 5) && inRanges ideographRanges n then some n else none

/-- The stems of names that end in the code point, with the code points that are named so. -/
def numberedFamilies : List (String × List (Nat × Nat)) :=
  [("CJK COMPATIBILITY IDEOGRAPH-", [(0xF900, 0xFA6D), (0xFA70, 0xFAD9), (0x2F800, 0x2FA1D)]),
   ("KHITAN SMALL SCRIPT CHARACTER-", [(0x18B00, 0x18CD5)]),
   ("NUSHU CHARACTER-", [(0x1B170, 0x1B2FB)])]

def numberedCharacter? (name : List Char) : Option Nat :=
  numberedFamilies.findSome? fun (stem, ranges) => do
    let digits ← afterStem? stem name
    let n ← capitalHex? digits
    if inRanges ranges n && digits == (Nat.toDigits 16 n).map Char.toUpper then some n else none

def charNamed? (name : List Char) : Option Nat :=
  match afterStem? "HANGUL SYLLABLE " name, afterStem? "CJK UNIFIED IDEOGRAPH-" name with
  | some letters, _ => syllableNamed? letters
  | _, some digits => ideographNamed? digits
  | none, none =>
    let capitals := name.map Char.toUpper
    (numberedCharacter? capitals).or (tabledCharacter? capitals)

end VhdlWorkbench.Text
