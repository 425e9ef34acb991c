import VhdlWorkbench.Declaration.Entry
import VhdlWorkbench.Design.Architecture
import VhdlWorkbench.Design.Interface
import VhdlWorkbench.Pattern.Template
import VhdlWorkbench.Table

/-!
Connections between the ports of a unit and the names of the architecture that instantiates it.
-/

namespace VhdlWorkbench.Instantiate

open Pattern Pattern.Node

def portWord : Regex :=
  Regex.ofNode { ignoreCase := true } (start ++ gap ++ lit "port" ++ edge)

def directionWord : Regex :=
  Regex.ofNode { ignoreCase := true }
    (edge ++ captured (choice [lit "in", lit "out", lit "inout"]) ++ gap1)

def spacedDirection : Regex :=
  Regex.ofNode { ignoreCase := true }
    (gap1 ++ captured (choice [lit "in", lit "out", lit "inout"]) ++ gap1)

def wholeWord (name : String) : Except Fault Regex :=
  orFault (Regex.build {} (edge ++ .pasted name ++ edge))

/-- How the text of a port's declaration declares a signal of its name. -/
def asSignal (text : String) : String :=
  directionWord.replace " " (portWord.replace "signal" text)

/-- Whether a name suits a port: the declaration of a signal for the port, and what is wrong with the
name, which is nothing if it is not declared or declared like that signal. -/
def checkConnection (port name : Entry) : Except Fault (String × String) := do
  let portText ← port.text.demand "decl"
  let signal := asSignal portText
  let done (warning : String) : Except Fault (String × String) := .ok (signal ++ ";", warning)
  match ← name.text.read "decl" with
  | none => done ""
  | some text =>
    if text.isEmpty then done ""
    else
      let isPort := (← name.tag.read "tag") == some "port"
      let opposed ←
        if isPort then do pure ((← name.direction.read "dir") != (← port.direction.read "dir"))
        else pure false
      let lower := Text.toLower text
      let lower :=
        if isPort then
          spacedDirection.replace " " (Text.toLower (portWord.replace "signal" lower))
        else lower
      let ownName ← name.name.demand "name"
      let portName ← port.name.read "name"
      let r ← wholeWord ownName
      match portName with
      | none => throw .wrongKind
      | some portName =>
        let renamed ← r.replaceWith portName lower
        if opposed then done "Incompatible port direction"
        else if Text.toLower signal != renamed then
          done ("Signal/port not matching: \"" ++ portText ++ "\" vs  \"" ++ text ++ "\"")
        else done ""

structure Matching where
  leads : List String := []
  tails : List String := []
  /-- Names may have more in front. -/
  extendsFront : Bool := false
  /-- Names may have more behind. -/
  extendsBack : Bool := false

/-- The name without the first of the leads that it begins with. -/
def dropLead (name : String) (leads : List String) : String :=
  match leads.find? (Text.startsWith name) with
  | some lead => String.ofList (name.toList.drop lead.length)
  | none => name

/-- The name without the first of the tails that it ends in; the empty tail takes all. -/
def dropTail (name : String) (tails : List String) : String :=
  match tails.find? (Text.endsWith name) with
  | some tail =>
    if tail.isEmpty then "" else String.ofList (name.toList.take (name.length - tail.length))
  | none => name

def Matching.properName (s : Matching) (name : String) : String :=
  dropTail (dropLead name s.leads) s.tails

abbrev Names := List (String × Declaration)

/-- The names of an architecture: the ports of its unit and its signals. -/
def namesOf (interface : Design.Interface) (architecture : Design.Architecture) : Names :=
  Table.putAll (·.name) (Table.putAll (·.name) [] interface.ports) architecture.signals

/-- The key that a match stands for: its group, or all its groups if it has several. -/
def keyOf (r : Regex) (m : Match) : String :=
  if r.slots ≤ 2 then Text.quoted (m.group 1)
  else
    "(" ++ Text.join ", " ((List.range (r.slots - 1)).map fun slot => Text.quoted (m.group (slot + 1))) ++
      ")"

/-- The first of the candidates that suits a port, or else the last of them, with what is wrong with
it. -/
def bestCandidate (port : Entry) (names : Names) (r : Regex) :
    List Match → Except Fault (Option (Declaration × String))
  | [] => .ok none
  | m :: rest => do
    match if r.slots ≤ 2 then names.lookup (m.group 1) else none with
    | none => throw (.noEntry (keyOf r m))
    | some d =>
      let (_, warning) ← checkConnection port d.toEntry
      if warning.isEmpty then return some (d, warning)
      match ← bestCandidate port names r rest with
      | none => return some (d, warning)
      | better => return better

/-- The best of the names that match a pattern, the shorter ones first. -/
def extended? (port : Entry) (names : Names) (pattern : Node) :
    Except Fault (Option (Declaration × String)) := do
  let r ← orFault (Regex.build { multiline := true } pattern)
  let found := r.matches_ (Text.join "\n" (names.map (·.1)))
  let size (m : Match) : Nat := if r.slots ≤ 2 then (m.group 1).length else r.slots
  bestCandidate port names r (found.mergeSort fun m n => size m ≤ size n)

/-- The name that an architecture has for a port, with what is wrong with it. -/
def findName? (s : Matching) (names : Names) (port : Entry) (proper : String) :
    Except Fault (Option (Declaration × String)) := do
  match names.lookup proper with
  | some d => return some (d, (← checkConnection port d.toEntry).2)
  | none =>
    let front ←
      if s.extendsFront then
        extended? port names (edge ++ captured (identifier ++ lit "_" ++ .pasted proper) ++ edge)
      else pure none
    match front with
    | some found => return some found
    | none =>
      if s.extendsBack then
        extended? port names (edge ++ captured (.pasted proper ++ lit "_" ++ identifier) ++ edge)
      else return none

/-- Connections: the declarations of new signals, the name that each port is connected to, and what is
wrong with some of these names. -/
structure Connections where
  declarations : String := ""
  links : List (String × String) := []
  mismatches : List (String × String) := []
deriving DecidableEq, Repr

def Connections.add (c : Connections) (s : Matching) (names : Names) (port : Entry) :
    Except Fault Connections := do
  let name ← port.name.demand "name"
  let proper := s.properName name
  match ← findName? s names port proper with
  | some (d, warning) =>
    return { c with
      links := Table.put c.links name d.name
      mismatches := if warning.isEmpty then c.mismatches else Table.put c.mismatches name warning }
  | none =>
    let (declaration, _) ← checkConnection port { text := .null }
    return { c with
      declarations := c.declarations ++ "\t" ++ declaration ++ "\n"
      links := Table.put c.links name proper }

def connect (s : Matching) (names : Names) (ports : List Entry) : Except Fault Connections :=
  ports.foldlM (fun c port => c.add s names port) {}

end VhdlWorkbench.Instantiate
