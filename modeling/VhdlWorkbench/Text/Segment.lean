/-!
Segments of texts; offsets count characters.
-/

namespace VhdlWorkbench.Text

/-- The offset of the first place where `part` stands in `cs`, counted from `at_`. -/
def findFrom (part : List Char) (at_ : Nat) : List Char → Option Nat
  | [] => if part.isEmpty then some at_ else none
  | c :: rest =>
    if part.isPrefixOf (c :: rest) then some at_ else findFrom part (at_ + 1) rest

/-- The offset of the first place where `part` stands in `s`. -/
def find? (s part : String) : Option Nat :=
  findFrom part.toList 0 s.toList

/-- The offset of the last place where `part` stands in `s`. -/
def findLast? (s part : String) : Option Nat :=
  (findFrom part.toList.reverse 0 s.toList.reverse).map fun n => s.length - part.length - n

def contains (s part : String) : Bool :=
  (find? s part).isSome

def startsWith (s part : String) : Bool :=
  part.toList.isPrefixOf s.toList

def endsWith (s part : String) : Bool :=
  part.toList.isSuffixOf s.toList

def count (s : String) (c : Char) : Nat :=
  s.toList.count c

def replaceFirst (s old new : String) : String :=
  match find? s old with
  | none => s
  | some n =>
    String.ofList (s.toList.take n ++ new.toList ++ s.toList.drop (n + old.length))

def eraseLast (s : String) (c : Char) : String :=
  String.ofList (s.toList.reverse.erase c).reverse

def replaceChar (s : String) (old : Char) (new : String) : String :=
  String.ofList (s.toList.flatMap fun c => if c == old then new.toList else [c])

/-- Every `old` gives way to `new`, from the left; `skip` characters belong to the last `old`. -/
def replaceFrom (old new : List Char) (skip : Nat) : List Char → List Char
  | [] => []
  | c :: rest =>
    match skip with
    | k + 1 => replaceFrom old new k rest
    | 0 =>
      if old.isPrefixOf (c :: rest) then new ++ replaceFrom old new (old.length - 1) rest
      else c :: replaceFrom old new 0 rest

/-- Every `old` gives way to `new`; an empty `old` stands before every character and at the end. -/
def replaceAll (s old new : String) : String :=
  if old.isEmpty then String.ofList (s.toList.flatMap (fun c => new.toList ++ [c]) ++ new.toList)
  else String.ofList (replaceFrom old.toList new.toList 0 s.toList)

/-- The pieces between the separators; `piece` is the piece read so far, reversed. -/
def splitFrom (sep : Char) (piece : List Char) : List Char → List String
  | [] => [String.ofList piece.reverse]
  | c :: rest =>
    if c == sep then String.ofList piece.reverse :: splitFrom sep [] rest
    else splitFrom sep (c :: piece) rest

/-- The pieces of a text between the occurrences of a separator, at least one. -/
def splitOn (s : String) (sep : Char) : List String :=
  splitFrom sep [] s.toList

def slice (s : String) (start stop : Nat) : String :=
  String.ofList ((s.toList.take stop).drop start)

/-- The text without the occurrences of a character at its ends. -/
def strip (s : String) (c : Char) : String :=
  String.ofList (((s.toList.dropWhile (· == c)).reverse.dropWhile (· == c)).reverse)

def join (sep : String) (parts : List String) : String :=
  String.intercalate sep parts

def times (n : Nat) (s : String) : String :=
  String.join (List.replicate n s)

end VhdlWorkbench.Text
