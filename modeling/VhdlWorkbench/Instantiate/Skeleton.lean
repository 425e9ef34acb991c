import VhdlWorkbench.Declaration.Entry
import VhdlWorkbench.Table

/-!
The text of an instance, with the names of each map in one column.
-/

namespace VhdlWorkbench.Instantiate

structure Style where
  isSnippet : Bool := false
  lead : Json := .text ""
  tail : Json := .text ""

def Style.field (s : Style) (number : Nat) (text : String) : String :=
  if s.isSnippet then "$\x7b" ++ toString number ++ ":" ++ text ++ "\x7d" else text

def widest (texts : List String) : Nat :=
  (texts.map String.length).foldl max 0

/-- The rows of a map: formals in a column, each with its actual as a field; fields are numbered from
`number` on. -/
def mapRows (s : Style) (width number : Nat) : List (String × String) → String
  | [] => ""
  | (formal, actual) :: rest =>
    "\t\t\t" ++ Text.padRight width formal ++ " => " ++ s.field number actual ++
      (if rest.isEmpty then "" else ",") ++ "\n" ++ mapRows s width (number + 1) rest

/-- The actuals of ports, padded, and the links that connect a port to another name. -/
def portActuals (width : Nat) :
    List String → List (String × String) → List (String × String) × List (String × String)
  | [], links => ([], links)
  | port :: rest, links =>
    match links.lookup port with
    | none =>
      let (rows, links) := portActuals width rest links
      ((port, "") :: rows, links)
    | some actual =>
      let (rows, links) :=
        portActuals width rest (if actual == port then Table.erase links port else links)
      ((port, Text.padRight width actual) :: rows, links)

def textValue : Json → Except Fault String
  | .text s => .ok s
  | _ => .error .wrongKind

def headLine (s : Style) (unit : Field) : Except Fault String := do
  let name ← unit.read "name"
  let lead ← textValue s.lead
  match name with
  | none => throw .wrongKind
  | some name =>
    return "\t" ++ s.field 1 (lead ++ name ++ (← textValue s.tail)) ++ " : entity work." ++ name ++ "\n"

/-- The text of an instance of a unit, with values for generics and links for ports; and those links
that connect a port to another name. The ports may be unknown. -/
def skeleton (s : Style) (unit : Field) (values : List Entry) (ports : Option (List Entry))
    (links : List (String × String)) : Except Fault (String × List (String × String)) := do
  let head ← headLine s unit
  let generics ← values.mapM fun v => v.name.demand "name"
  let actuals ← values.mapM fun v => v.value.demand "value"
  let actualWidth := widest actuals
  let genericMap :=
    if values.isEmpty then ""
    else
      "\t\tgeneric map (\n" ++
        mapRows s (widest generics) 2
          (generics.zip (actuals.map (Text.padRight actualWidth))) ++ "\t\t)\n"
  match ports with
  | none => throw (.noEntry (Text.quoted "port"))
  | some ports =>
    let names ← ports.mapM fun p => p.name.demand "name"
    let (rows, links) := portActuals (widest (links.map (·.1))) names links
    let portMap :=
      if ports.isEmpty then ""
      else
        "\t\tport map (\n" ++ mapRows s (widest names) (2 + values.length) rows ++ "\t\t)"
    return (head ++ genericMap ++ portMap ++ ";\n\n", links)

end VhdlWorkbench.Instantiate
