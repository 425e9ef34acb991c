import VhdlWorkbench.Pattern.Match
import VhdlWorkbench.Pattern.Parser
import VhdlWorkbench.Pattern.Printer

/-!
Patterns ready for use. A tree with pasted text is taken as it is when every pasted text is a word and is read from
its written form otherwise. Successive matches do not overlap, and an empty match is not followed by another one at
its place.
-/

namespace VhdlWorkbench.Pattern

/-- A pattern with its options, the number of its slots and the names of its groups. -/
structure Regex where
  node : Node
  options : Options := {}
  slots : Nat := 1
  names : List (String × Nat) := []
  /-- What the first character of a match has to be under the options of the whole pattern. -/
  opening : Option Single := none
  /-- No match is shorter than this. -/
  least : Nat := 0
deriving Repr

structure Match where
  source : Array Char
  start : Nat
  stop : Nat
  spans : Array (Option (Nat × Nat))
  names : List (String × Nat)
deriving Repr

/-- The single-character pattern that a pattern begins with, and the options that hold there. -/
def Node.first? : Node → Options → Option (Options × Single)
  | .one s, o => some (o, s)
  | .seq a _, o => a.first? o
  | .capture _ _ body, o | .group body, o => body.first? o
  | .scoped on off body, o => body.first? (o.adjust on off)
  | _, _ => none

def hasCase (o : Options) (n : Nat) : Bool :=
  if o.ascii then (65 ≤ n && n ≤ 90) || (97 ≤ n && n ≤ 122)
  else Text.lowerCode n != n || Text.upperCode n != n

/-- A member of a set holds a letter that has case, or may do so. -/
def SetItem.hasCase (o : Options) : SetItem → Bool
  | .char c => Pattern.hasCase o c.toNat
  | .range lo hi =>
    0xffff < hi.toNat ||
      (List.range (hi.toNat + 1 - lo.toNat)).any fun n => Pattern.hasCase o (lo.toNat + n)
  | .category _ _ => false

def SetItem.isCategory : SetItem → Bool
  | .category _ _ => true
  | _ => false

/-- The class or the set with classes that decides where a search looks, if the options of the whole
pattern read it differently than those of the place where it stands. -/
def opening? (options : Options) (node : Node) : Option Single :=
  match node.first? options with
  | some (o, .category negated k) =>
    if o.ascii == options.ascii then none else some (.category negated k)
  | some (o, .set negated items) =>
    if o.ascii == options.ascii || !items.any SetItem.isCategory ||
        (o.ignoreCase && items.any (SetItem.hasCase o)) then none
    else some (.set negated items)
  | _ => none

namespace Regex

def ofNode (options : Options) (node : Node) : Regex :=
  let (node, slots) := node.number 1
  { node := node, options := options, slots := slots, names := node.names }

def parse (options : Options) (written : List Char) : Except PatternError Regex := do
  let (node, r) ← readWhole.run { rest := written, options := options }
  let opening := opening? r.options node
  let (least, _) := node.width r.widths
  return { node, options := r.options, slots := r.next, names := r.names, opening, least }

def build (options : Options) (node : Node) : Except PatternError Regex :=
  if node.pastedTexts.all fun text => text.toList.all Text.isWord then .ok (ofNode options node)
  else parse options node.render

/-- Matches at one place; when `nonempty` is set the match has to consume something. -/
def matchAt (r : Regex) (text : Array Char) (pos : Nat) (nonempty : Bool) : Option Match :=
  if text.size < pos + r.least then none
  else
    let t : Thread := { pos := pos, spans := Array.replicate r.slots none }
    (exec text r.node r.options t fun t => if nonempty && t.pos == pos then none else some t).map
      fun t => { source := text, start := pos, stop := t.pos, spans := t.spans, names := r.names }

def mayOpen (r : Regex) (text : Array Char) (pos : Nat) : Bool :=
  match r.opening with
  | none => true
  | some s => (text[pos]?.map (s.accepts { r.options with ignoreCase := false })).getD false

/-- The leftmost match from a place on, at one of `fuel` places. -/
def searchPlaces (r : Regex) (text : Array Char) : Nat → Nat → Bool → Option Match
  | 0, _, _ => none
  | fuel + 1, pos, nonempty =>
    match if r.mayOpen text pos then r.matchAt text pos nonempty else none with
    | some m => some m
    | none => searchPlaces r text fuel (pos + 1) false

def searchFrom (r : Regex) (text : Array Char) (pos : Nat) (nonempty : Bool) : Option Match :=
  searchPlaces r text (text.size + 1 - pos) pos nonempty

def search? (r : Regex) (text : String) : Option Match :=
  r.searchFrom text.toList.toArray 0 false

def matchStart? (r : Regex) (text : String) : Option Match :=
  r.matchAt text.toList.toArray 0 false

/-- The matches from a place on; each either moves the place or forbids an empty match there. -/
def matchesFrom (r : Regex) (text : Array Char) : Nat → Nat → Bool → List Match
  | 0, _, _ => []
  | fuel + 1, pos, nonempty =>
    match r.searchFrom text pos nonempty with
    | none => []
    | some m => m :: matchesFrom r text fuel m.stop (m.stop == m.start)

def matches_ (r : Regex) (text : String) : List Match :=
  let chars := text.toList.toArray
  r.matchesFrom chars (2 * chars.size + 2) 0 false

/-- The text with each of the given matches replaced, from a place on. -/
def splice (text : Array Char) (f : Match → List Char) : Nat → List Match → List Char
  | pos, [] => segment text pos text.size
  | pos, m :: rest => segment text pos m.start ++ f m ++ splice text f m.stop rest

def replaceBy (r : Regex) (f : Match → String) (text : String) : String :=
  let chars := text.toList.toArray
  String.ofList (splice chars (fun m => (f m).toList) 0 (r.matches_ text))

/-- Replaces every match by what a function makes of it, with the number of matches; the function may
fail. -/
def replaceByM {ε : Type} (r : Regex) (f : Match → Except ε String) (text : String) :
    Except ε (String × Nat) := do
  let found := r.matches_ text
  let news ← found.mapM f
  let chars := text.toList.toArray
  let stops := 0 :: found.map (·.stop)
  let pieces := (found.zip (stops.zip news)).flatMap fun (m, stop, new) =>
    segment chars stop m.start ++ new.toList
  return (String.ofList (pieces ++ segment chars (stops.getLastD 0) chars.size), found.length)

def replace (r : Regex) (new : String) (text : String) : String :=
  r.replaceBy (fun _ => new) text

end Regex

namespace Match

def text (m : Match) : String :=
  String.ofList (segment m.source m.start m.stop)

/-- The span of a group, if the group took part; group 0 is the match. -/
def span? (m : Match) (slot : Nat) : Option (Nat × Nat) :=
  if slot = 0 then some (m.start, m.stop) else (m.spans[slot]?).join

def group? (m : Match) (slot : Nat) : Option String :=
  (m.span? slot).map fun (start, stop) => String.ofList (segment m.source start stop)

def group (m : Match) (slot : Nat) : String :=
  (m.group? slot).getD ""

def hasName (m : Match) (name : String) : Bool :=
  (m.names.lookup name).isSome

/-- The text of a named group, if there is one and it took part. -/
def named? (m : Match) (name : String) : Option String :=
  (m.names.lookup name).bind m.group?

def named (m : Match) (name : String) : String :=
  (m.named? name).getD ""

end Match

end VhdlWorkbench.Pattern
