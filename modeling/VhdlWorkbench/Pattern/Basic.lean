import VhdlWorkbench.Text.Alphanumeric
import VhdlWorkbench.Text.Blank
import VhdlWorkbench.Text.Case
import VhdlWorkbench.Text.Digit

/-!
Patterns over texts, as trees. A leaf may hold pasted text, which is a plain word in the usual case and pattern text
otherwise.
-/

namespace VhdlWorkbench.Pattern

/-- How the leaves of a pattern compare characters. -/
structure Options where
  /-- Upper and lower case are not told apart. -/
  ignoreCase : Bool := false
  /-- The any-character leaf accepts a line feed. -/
  dotAll : Bool := false
  /-- The line anchors hold at every line, not only at the ends of the text. -/
  multiline : Bool := false
  /-- The classes and case folding know ASCII only. -/
  ascii : Bool := false
  /-- The classes and case folding know every script, as they do when nothing is said. -/
  unicode : Bool := false
  /-- Blanks and comments in the written form are layout. -/
  verbose : Bool := false
  /-- Repetitions are forbidden. -/
  noRepeats : Bool := false
deriving DecidableEq, Repr

inductive Category where
  | digit
  | space
  | word
deriving DecidableEq, Repr

inductive SetItem where
  | char (c : Char)
  | range (lo hi : Char)
  | category (negated : Bool) (k : Category)
deriving DecidableEq, Repr

inductive Single where
  | char (c : Char)
  | any
  | category (negated : Bool) (k : Category)
  | set (negated : Bool) (items : List SetItem)
deriving DecidableEq, Repr

inductive Greed where
  /-- Longest first. -/
  | greedy
  /-- Shortest first. -/
  | lazy
  /-- The longest only. -/
  | possessive
deriving DecidableEq, Repr

inductive Anchor where
  | lineStart
  | lineEnd
  | textStart
  | textEnd
  | wordEdge
  | noWordEdge
deriving DecidableEq, Repr

inductive Node where
  | empty
  | one (s : Single)
  | run (s : Single) (lo : Nat) (hi : Option Nat) (greed : Greed)
  | seq (a b : Node)
  | alt (a b : Node)
  | rep (body : Node) (lo : Nat) (hi : Option Nat) (greed : Greed)
  | capture (slot : Nat) (name : Option String) (body : Node)
  | group (body : Node)
  | scoped (on off : Options) (body : Node)
  | ref (slot : Nat)
  | anchor (a : Anchor)
  /-- Look-ahead, or look-behind over the given number of characters. -/
  | look (behind : Option Nat) (negated : Bool) (body : Node)
  | whenSet (slot : Nat) (yes no : Node)
  | atomic (body : Node)
  | pasted (text : String)
deriving DecidableEq, Repr

instance : Append Node := ⟨Node.seq⟩

def Options.union (o on : Options) : Options where
  ignoreCase := o.ignoreCase || on.ignoreCase
  dotAll := o.dotAll || on.dotAll
  multiline := o.multiline || on.multiline
  ascii := o.ascii || on.ascii
  unicode := o.unicode || on.unicode
  verbose := o.verbose || on.verbose
  noRepeats := o.noRepeats || on.noRepeats

/-- Options of a scoped group: what `on` sets is set, and what `off` sets is cleared. Which characters
the classes know is said by `on` alone if it says anything about it. -/
def Options.adjust (o on off : Options) : Options where
  ignoreCase := (o.ignoreCase || on.ignoreCase) && !off.ignoreCase
  dotAll := (o.dotAll || on.dotAll) && !off.dotAll
  multiline := (o.multiline || on.multiline) && !off.multiline
  ascii := on.ascii || (o.ascii && !on.unicode)
  unicode := on.unicode || (o.unicode && !on.ascii)
  verbose := (o.verbose || on.verbose) && !off.verbose
  noRepeats := o.noRepeats

/-- A character of a class; under `ascii` the classes hold ASCII characters only. -/
def Category.accepts (o : Options) (k : Category) (c : Char) : Bool :=
  (!o.ascii || c.toNat < 128) &&
    match k with
    | .digit => Text.isDigit c
    | .space => Text.isBlank c && (!o.ascii || c.toNat < 28 || c == ' ')
    | .word => Text.isWord c

/-- The code point that stands for a letter when case is ignored. -/
def foldCode (o : Options) (n : Nat) : Nat :=
  if o.ascii && 128 ≤ n then n else Text.lowerCode n

/-- The characters `pattern` and `c` are one letter when case is ignored. -/
def sameLetter (o : Options) (pattern c : Char) : Bool :=
  let p := foldCode o pattern.toNat
  let n := foldCode o c.toNat
  n == p || (!o.ascii && (128 ≤ n || 128 ≤ p) && (Text.sameLetters p).contains n)

/-- The code points that are one letter with `n`, which is in lower case, when case is ignored. -/
def letterVariants (n : Nat) : List Nat :=
  (n :: Text.sameLetters n).flatMap fun m => m :: Text.upperCodes m

/-- A range that holds a letter which is one with `c` when case is ignored. A range that reaches beyond
the basic plane also holds the letters whose upper-case form it holds. -/
def rangeHoldsLetter (o : Options) (lo hi c : Char) : Bool :=
  let n := foldCode o c.toNat
  let holds (m : Nat) : Bool := lo.toNat ≤ m && m ≤ hi.toNat
  if n < 128 && hi.toNat < 128 then holds n || (97 ≤ n && n ≤ 122 && holds (n - 32))
  else
    (if o.ascii then holds n || (97 ≤ n && n ≤ 122 && holds (n - 32))
      else (letterVariants n).any holds) ||
    (0xffff < hi.toNat && holds (Text.upperCode n))

/-- A character in a set of several members accepts `c` when case is ignored. Beyond the basic plane a
capital letter in such a set accepts nothing. -/
def memberAcceptsLetter (o : Options) (p c : Char) : Bool :=
  if foldCode o p.toNat ≤ 0xffff then sameLetter o p c else foldCode o c.toNat == p.toNat

def SetItem.accepts (o : Options) (i : SetItem) (c : Char) : Bool :=
  match i with
  | .char p => if o.ignoreCase then memberAcceptsLetter o p c else p == c
  | .range lo hi =>
    if o.ignoreCase then rangeHoldsLetter o lo hi c
    else lo.toNat ≤ c.toNat && c.toNat ≤ hi.toNat
  | .category negated k => k.accepts o c != negated

def charAccepts (o : Options) (p c : Char) : Bool :=
  if o.ignoreCase then sameLetter o p c else p == c

def Single.accepts (o : Options) (s : Single) (c : Char) : Bool :=
  match s with
  | .char p => charAccepts o p c
  | .any => o.dotAll || c != '\n'
  | .category negated k => k.accepts o c != negated
  | .set negated [.char p] => charAccepts o p c != negated
  | .set negated items => items.any (·.accepts o c) != negated

namespace Node

/-- The characters of a text, one after the other. -/
def lit (s : String) : Node :=
  match s.toList with
  | [] => .empty
  | c :: rest => rest.foldl (fun acc d => .seq acc (.one (.char d))) (.one (.char c))

def inOrder : List Node → Node
  | [] => .empty
  | p :: rest => rest.foldl .seq p

/-- The first of the patterns that leads to a match. -/
def choice : List Node → Node
  | [] => .empty
  | [p] => p
  | p :: rest => .alt p (choice rest)

/-- The items of a sequence in front of other items; an uncaptured group counts as its items. -/
def partsBefore : Node → List Node → List Node
  | .empty, rest => rest
  | .seq a b, rest => a.partsBefore (b.partsBefore rest)
  | .group body, rest => body.partsBefore rest
  | p, rest => p :: rest

def parts (p : Node) : List Node :=
  p.partsBefore []

def oneOf (ps : List Node) : Node :=
  .group (choice ps)

def captured (body : Node) : Node :=
  .capture 0 none body

def named (name : String) (body : Node) : Node :=
  .capture 0 (some name) body

/-- A pattern or nothing, the pattern first. -/
def optional (body : Node) : Node :=
  .rep body 0 (some 1) .greedy

/-- Any number of characters, as many as possible. -/
def many (s : Single) : Node :=
  .run s 0 none .greedy

/-- At least one character, as many as possible. -/
def many1 (s : Single) : Node :=
  .run s 1 none .greedy

/-- Any number of characters, as few as possible. -/
def few (s : Single) : Node :=
  .run s 0 none .lazy

def maybe (s : Single) : Node :=
  .run s 0 (some 1) .greedy

def edge : Node :=
  .anchor .wordEdge

def start : Node :=
  .anchor .lineStart

def stop : Node :=
  .anchor .lineEnd

def gap : Node :=
  many (.category false .space)

def gap1 : Node :=
  many1 (.category false .space)

def blank : Node :=
  .one (.category false .space)

def identifier : Node :=
  many1 (.category false .word)

/-- The written form of the pattern of any identifier. -/
def anyName : String :=
  "\\w+"

/-- A name that is pasted into a pattern; it may stand for any identifier. -/
def nameOrAny (name : String) : Node :=
  if name == anyName then identifier else .pasted name

/-- Numbers the captured groups from `next` on, in the order of their opening. -/
def number : Node → Nat → Node × Nat
  | .seq a b, next =>
    let (a, next) := a.number next
    let (b, next) := b.number next
    (.seq a b, next)
  | .alt a b, next =>
    let (a, next) := a.number next
    let (b, next) := b.number next
    (.alt a b, next)
  | .rep body lo hi greed, next =>
    let (body, next) := body.number next
    (.rep body lo hi greed, next)
  | .capture _ name body, next =>
    let (body, after) := body.number (next + 1)
    (.capture next name body, after)
  | .group body, next =>
    let (body, next) := body.number next
    (.group body, next)
  | .scoped on off body, next =>
    let (body, next) := body.number next
    (.scoped on off body, next)
  | .look behind negated body, next =>
    let (body, next) := body.number next
    (.look behind negated body, next)
  | .whenSet slot yes no, next =>
    let (yes, next) := yes.number next
    let (no, next) := no.number next
    (.whenSet slot yes no, next)
  | .atomic body, next =>
    let (body, next) := body.number next
    (.atomic body, next)
  | p, next => (p, next)

def names : Node → List (String × Nat)
  | .seq a b | .alt a b | .whenSet _ a b => a.names ++ b.names
  | .capture slot name body =>
    (match name with
      | none => []
      | some n => [(n, slot)]) ++ body.names
  | .rep body _ _ _ | .group body | .scoped _ _ body | .look _ _ body | .atomic body => body.names
  | _ => []

def pastedTexts : Node → List String
  | .seq a b | .alt a b | .whenSet _ a b => a.pastedTexts ++ b.pastedTexts
  | .capture _ _ body | .rep body _ _ _ | .group body | .scoped _ _ body | .look _ _ body
  | .atomic body => body.pastedTexts
  | .pasted text => [text]
  | _ => []

end Node

end VhdlWorkbench.Pattern
