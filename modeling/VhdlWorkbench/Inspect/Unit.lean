import VhdlWorkbench.Editor.Workspace

/-!
The design unit at a place of a text, by the headers before it.
-/

namespace VhdlWorkbench.Inspect

open Editor Editor.Act
open Pattern Pattern.Node

/-- The first group of a match; a pattern without groups has none to give. -/
def firstGroup (r : Regex) (m : Match) : Except Fault String :=
  if r.slots ≤ 1 then .error (.pattern .unknownGroup) else .ok (m.group 1)

def lastBefore {α : Type} (p : Int) (places : List (Int × α)) : Option α :=
  ((places.takeWhile fun (start, _) => start < p).getLast?).map (·.2)

/-- The first group of the last match that begins before a place; empty if there is none. -/
def closest (b : Buffer) (r : Regex) (p : Int) : Except Fault String := do
  let places ← (b.findAll r).mapM fun m => do return ((m.start : Int), ← firstGroup r m)
  return (lastBefore p places).getD ""

def headerOptions : Options :=
  { ignoreCase := true, dotAll := true, multiline := true }

def lineIndent : Node :=
  start ++ many (.set false [.char ' ', .char '\t'])

def entityHeader : Regex :=
  Regex.ofNode headerOptions
    (lineIndent ++
      oneOf [lit "entity", lit "architecture" ++ gap1 ++ identifier ++ gap1 ++ lit "of"] ++
      gap1 ++ captured (identifier ++ edge))

def unitName (id : Nat) : Act String := do
  let b ← buffer id
  let r ← lift b.cursor
  if r.isEmpty then lift (closest b entityHeader r.a) else textOf id r

/-- The headers of entities, of architectures and of packages, each with its kind and its name. -/
def unitHeaders : List Regex :=
  [Regex.ofNode headerOptions
    (lineIndent ++ captured (lit "entity") ++ gap1 ++ captured identifier),
   Regex.ofNode headerOptions
    (lineIndent ++ captured (lit "architecture") ++ gap1 ++ .group identifier ++ gap1 ++ lit "of" ++
      gap1 ++ captured identifier),
   Regex.ofNode headerOptions
    (lineIndent ++ captured (lit "package") ++
      Node.optional (.group (gap1 ++ lit "body" ++ edge)) ++ gap1 ++ captured identifier)]

/-- The headers of one kind in a buffer: where each begins, and its kind and its name. -/
def headersOf (b : Buffer) (r : Regex) : List (Int × String × String) :=
  (b.findAll r).map fun m => (m.start, m.group 1, m.group 2)

/-- The kind and the name of the unit at a place: among the headers, those of entities first, then those
of architectures and of packages, the last before the first that does not begin before the place; the
first header if that leaves none. -/
def unitAt (b : Buffer) (p : Int) : String × String :=
  let headers := unitHeaders.flatMap (headersOf b)
  match lastBefore p headers with
  | some unit => unit
  | none => (headers.head?.map (·.2)).getD ("", "")

def unitAtCursor (id : Nat) : Act (String × String) := do
  let b ← buffer id
  let r ← lift b.cursor
  return unitAt b r.a

end VhdlWorkbench.Inspect
