import VhdlWorkbench.Text.CodeRange

/-!
Blank characters, and the operations on texts that depend on nothing else.
-/

namespace VhdlWorkbench.Text

/-- The blank code points: tabs, line and page ends, separators of information, spaces. -/
def blankRanges : List (Nat × Nat) :=
  [(9, 13), (28, 32), (133, 133), (160, 160), (5760, 5760), (8192, 8202), (8232, 8233),
   (8239, 8239), (8287, 8287), (12288, 12288)]

def isBlank (c : Char) : Bool :=
  inRanges blankRanges c.toNat

def dropBlanks (cs : List Char) : List Char :=
  cs.dropWhile isBlank

def dropBlanksRight (cs : List Char) : List Char :=
  (cs.reverse.dropWhile isBlank).reverse

def trimLeft (s : String) : String :=
  String.ofList (dropBlanks s.toList)

def trimRight (s : String) : String :=
  String.ofList (dropBlanksRight s.toList)

def trim (s : String) : String :=
  String.ofList (dropBlanksRight (dropBlanks s.toList))

/-- The maximal runs of characters that are not blank; `word` is the run read so far, reversed. -/
def wordsFrom (word : List Char) : List Char → List String
  | [] => if word.isEmpty then [] else [String.ofList word.reverse]
  | c :: rest =>
    if isBlank c then
      if word.isEmpty then wordsFrom [] rest
      else String.ofList word.reverse :: wordsFrom [] rest
    else wordsFrom (c :: word) rest

def words (s : String) : List String :=
  wordsFrom [] s.toList

def spaces (n : Nat) : String :=
  String.ofList (List.replicate n ' ')

/-- A text followed by spaces up to the width; a longer text stays as it is. -/
def padRight (width : Nat) (s : String) : String :=
  s ++ spaces (width - s.length)

end VhdlWorkbench.Text
