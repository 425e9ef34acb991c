import VhdlWorkbench.Editor.Region
import VhdlWorkbench.Fault
import VhdlWorkbench.Json.Basic
import VhdlWorkbench.Pattern.Regex
import VhdlWorkbench.Text.Segment

/-!
Buffers: texts that are shown in a view or a panel, with their selection, folds, scopes and settings.
-/

namespace VhdlWorkbench.Editor

open Pattern Pattern.Node

structure Span where
  start : Int
  stop : Int
  scope : String
deriving DecidableEq, Repr

structure Buffer where
  id : Nat
  /-- The text is shown in a panel and not in a view. -/
  isPanel : Bool := false
  name : String := ""
  file : Option String := none
  /-- The scope of the whole text. -/
  base : String := "source.vhdl"
  text : Array Char := #[]
  spans : List Span := []
  selection : List Region := []
  settings : List (String × Json) := []
  symbols : List (Region × String) := []
  folds : List (Int × Int) := []
  group : Int := 0

/-- What a place in a text can be. -/
inductive PlaceKind where
  | wordStart
  | wordEnd
  | punctuationStart
  | punctuationEnd
  | lineStart
  | lineEnd
  | emptyLine
deriving DecidableEq, Repr

def isPunctuation (c : Char) : Bool :=
  !Text.isWord c && !Text.isBlank c

namespace Buffer

def size (b : Buffer) : Nat :=
  b.text.size

def clamp (b : Buffer) (p : Int) : Nat :=
  min p.toNat b.size

def before? (b : Buffer) (p : Int) : Option Char :=
  if 0 < p then b.text[p.toNat - 1]? else none

def behind? (b : Buffer) (p : Int) : Option Char :=
  if 0 ≤ p then b.text[p.toNat]? else none

def contents (b : Buffer) : String :=
  String.ofList b.text.toList

def textOf (b : Buffer) (r : Region) : String :=
  String.ofList (b.text.extract r.first.toNat r.last.toNat).toList

/-- The scopes at a place: that of the text, and those of the spans that hold the place. -/
def scopeName (b : Buffer) (p : Int) : String :=
  b.base ++ String.join ((b.spans.filter fun s => s.start ≤ p && p < s.stop).map (" " ++ ·.scope))

def setting (b : Buffer) (key : String) (default : Json) : Json :=
  (b.settings.lookup key).getD default

def flag (b : Buffer) (key : String) (default : Bool) : Bool :=
  (b.setting key (.bool default)).isTrue

def lineStart (b : Buffer) : Nat → Nat
  | 0 => 0
  | p + 1 => if b.text[p]? == some '\n' then p + 1 else lineStart b p

/-- The end of the line that holds a place, before its line feed. -/
def lineEnd (b : Buffer) (p : Nat) : Nat :=
  p + (((b.text.extract p b.size).toList.takeWhile (· != '\n')).length)

/-- The lines that hold a region, without the last line feed. -/
def line (b : Buffer) (r : Region) : Region :=
  ⟨b.lineStart (b.clamp r.first), b.lineEnd (b.clamp r.last)⟩

def lineAt (b : Buffer) (p : Int) : Region :=
  b.line (.point p)

def word (b : Buffer) (r : Region) : Region :=
  let first := b.clamp r.first
  let last := b.clamp r.last
  let left := ((b.text.extract 0 first).toList.reverse.takeWhile Text.isWord).length
  let right := ((b.text.extract last b.size).toList.takeWhile Text.isWord).length
  ⟨(first : Int) - left, (last : Int) + right⟩

def rowCol (b : Buffer) (p : Int) : Int × Int :=
  let p := b.clamp p
  (((b.text.extract 0 p).toList.count '\n' : Nat), (p : Int) - b.lineStart p)

/-- The start of a row in what is left of a text behind a place, if the text has so many rows. -/
def rowStart? : Nat → Nat → List Char → Option Nat
  | 0, p, _ => some p
  | _ + 1, _, [] => none
  | n + 1, p, c :: rest => if c == '\n' then rowStart? n (p + 1) rest else rowStart? (n + 1) (p + 1) rest

/-- The place at a row and a column; behind the last row it is the end of the text. -/
def textPoint (b : Buffer) (row col : Int) : Int :=
  match rowStart? row.toNat 0 b.text.toList with
  | some start => b.clamp (start + col)
  | none => b.size

/-- A test of the character next to a place, which fails if there is none. -/
def holds (test : Char → Bool) : Option Char → Bool
  | some c => test c
  | none => false

def isKind (b : Buffer) (p : Int) : PlaceKind → Bool
  | .wordStart => holds Text.isWord (b.behind? p) && !holds Text.isWord (b.before? p)
  | .wordEnd => holds Text.isWord (b.before? p) && !holds Text.isWord (b.behind? p)
  | .punctuationStart => holds isPunctuation (b.behind? p) && !holds isPunctuation (b.before? p)
  | .punctuationEnd => holds isPunctuation (b.before? p) && !holds isPunctuation (b.behind? p)
  | .lineStart => p == 0 || b.before? p == some '\n'
  | .lineEnd => p == b.size || b.behind? p == some '\n'
  | .emptyLine =>
    (p == 0 || b.before? p == some '\n') && (p == b.size || b.behind? p == some '\n')

def isAnyKind (b : Buffer) (kinds : List PlaceKind) (p : Int) : Bool :=
  kinds.any (b.isKind p)

/-- The last place before `n` of one of the kinds; the start of the text if there is none. -/
def seekBack (b : Buffer) (kinds : List PlaceKind) : Nat → Nat
  | 0 => 0
  | n + 1 => if b.isAnyKind kinds n then n else seekBack b kinds n

/-- The first of `fuel` places from `n` on of one of the kinds; the end of the text if there is none. -/
def seekForward (b : Buffer) (kinds : List PlaceKind) : Nat → Nat → Nat
  | 0, _ => b.size
  | fuel + 1, n => if b.isAnyKind kinds n then n else seekForward b kinds fuel (n + 1)

def previous (b : Buffer) (p : Int) (kinds : List PlaceKind) : Int :=
  b.seekBack kinds (min p.toNat (b.size + 1))

def next (b : Buffer) (p : Int) (kinds : List PlaceKind) : Int :=
  let start := (p + 1).toNat
  b.seekForward kinds (b.size + 1 - start) start

def findMatch? (b : Buffer) (r : Regex) (start : Int) : Option Match :=
  r.searchFrom b.text (b.clamp start) false

def find (b : Buffer) (r : Regex) (start : Int) : Region :=
  match b.findMatch? r start with
  | some m => ⟨m.start, m.stop⟩
  | none => Region.none

def findAll (b : Buffer) (r : Regex) : List Match :=
  r.matchesFrom b.text (2 * b.size + 2) 0 false

def typedLine : Regex :=
  Regex.ofNode { multiline := true }
    (start ++ many (.set false [.char ' ']) ++ identifier ++ lit " (" ++ captured identifier ++
      lit ")" ++ stop)

def typeRegions (b : Buffer) : List Region :=
  (b.findAll typedLine).filterMap fun m => (m.span? 1).map fun (start, stop) => ⟨start, stop⟩

def leafMark : Char := '\u180E'

def markRegions (b : Buffer) : List Region :=
  (List.range b.size).filterMap fun (p : Nat) =>
    if b.text[p]? == some leafMark then some ⟨(p : Int), (p : Int) + 1⟩ else none

def tabSize (b : Buffer) : Except Fault Int :=
  match b.setting "tab_size" (.int 4) with
  | .int n => .ok n
  | .bool v => .ok (if v then 1 else 0)
  | _ => .error .wrongKind

/-- The depth of the indentation of the line that holds a place. -/
def indentation (b : Buffer) (p : Int) : Except Fault Int := do
  let tab ← b.tabSize
  let start := b.lineStart (b.clamp p)
  let blanks := (b.text.extract start b.size).toList.takeWhile fun c => c == ' ' || c == '\t'
  let width := blanks.foldl (fun (w : Int) c => w + if c == '\t' then tab else 1) 0
  if tab = 0 then throw .divisionByZero
  return width.fdiv tab

/-- The start of the run of lines at least `level` deep that ends with the line that starts at a place. -/
def runStart (b : Buffer) (level : Int) : Nat → Nat → Except Fault Nat
  | 0, start => .ok start
  | fuel + 1, start => do
    if start = 0 then return start
    let above := b.lineStart (start - 1)
    if level ≤ (← b.indentation above) then runStart b level fuel above else return start

/-- The end of the run of lines at least `level` deep that begins with the line that ends at a place. -/
def runEnd (b : Buffer) (level : Int) : Nat → Nat → Except Fault Nat
  | 0, stop => .ok stop
  | fuel + 1, stop => do
    if b.size ≤ stop then return b.size
    if level ≤ (← b.indentation (stop + 1 : Nat)) then
      runEnd b level fuel (b.lineEnd (stop + 1))
    else return stop + 1

/-- The neighbouring lines that are at least as deep as the line that holds a place, with their last
line feed; a line that is not indented has none. -/
def indentedRegion (b : Buffer) (p : Int) : Except Fault Region := do
  let level ← b.indentation p
  if level = 0 then return .point p
  let here := b.clamp p
  let first ← b.runStart level (b.size + 1) (b.lineStart here)
  let last ← b.runEnd level (b.size + 1) (b.lineEnd here)
  return ⟨first, last⟩

def fold (b : Buffer) (r : Region) : Buffer :=
  { b with folds := b.folds ++ [(r.first, r.last)] }

def isFolded (b : Buffer) (r : Region) : Bool :=
  b.folds.any fun (first, last) => first ≤ r.first && r.last ≤ last

def unfold (b : Buffer) (r : Region) : Buffer :=
  { b with folds := b.folds.filter fun (first, last) => last < r.first || r.last < first }

def replace (b : Buffer) (r : Region) (new : String) : Buffer :=
  let first := b.clamp r.first
  let last := b.clamp r.last
  { b with text := b.text.extract 0 first ++ new.toList.toArray ++ b.text.extract last b.size }

def insert (b : Buffer) (p : Int) (new : String) : Buffer :=
  b.replace (.point p) new

def cursor (b : Buffer) : Except Fault Region :=
  match b.selection with
  | r :: _ => .ok r
  | [] => .error .noElement

/-- Types a text at the start of the first selection, or at the end of the text. -/
def type (b : Buffer) (new : String) : Buffer :=
  let p : Int := match b.selection with
    | r :: _ => r.first
    | [] => b.size
  { b.insert p new with selection := [.point (b.clamp p + new.length : Nat)] }

def deleteSelection (b : Buffer) : Buffer :=
  match b.selection with
  | r :: _ => { b.replace r "" with selection := [.point r.first] }
  | [] => b

end Buffer

end VhdlWorkbench.Editor
