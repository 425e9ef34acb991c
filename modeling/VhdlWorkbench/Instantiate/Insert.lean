import VhdlWorkbench.Inspect.TypeInfo
import VhdlWorkbench.Instantiate.Connection
import VhdlWorkbench.Instantiate.Skeleton

/-!
Inserting an instance of a unit at the cursor, with its signals and a report.
-/

namespace VhdlWorkbench.Instantiate

open Editor Editor.Act

structure Request where
  unit : Field
  ports : Option (List Entry)
  values : List Entry

def entryList (j : Json) : Except Fault (List Entry) :=
  match j with
  | .list items => items.mapM fun item =>
    match item with
    | .object members => .ok (.ofMembers members)
    | _ => .error .wrongKind
  | j => if j.isTrue then .error .wrongKind else .ok []

def Request.ofJson (j : Json) : Except Fault Request := do
  match j with
  | .object members =>
    match members.lookup "minfo", members.lookup "pv" with
    | none, _ => throw (.noEntry (Text.quoted "minfo"))
    | _, none => throw (.noEntry (Text.quoted "pv"))
    | some (.object unit), some values =>
      return { unit := .ofMember unit "name"
               ports := ← (unit.lookup "port").mapM entryList
               values := ← entryList values }
    | _, _ => throw .wrongKind
  | _ => throw .wrongKind

def Request.ofInterface (i : Design.Interface) (values : List (String × Option String)) : Request where
  unit := .text i.name
  ports := some (i.ports.map (·.toEntry))
  values := values.map fun (name, value) => { name := .text name, value := .ofOption value }

def requestJson (i : Design.Interface) (values : List (String × Option String)) (file : String) : Json :=
  .object
    [("minfo", .object
      [("name", .text i.name), ("type", .text i.kind),
       ("param", .list (i.generics.map (·.toJson))), ("port", .list (i.ports.map (·.toJson)))]),
     ("pv", .list (values.map fun (name, value) =>
       .object [("name", .text name), ("value", Json.ofOption value)])),
     ("fname", .text file)]

def matchingOf (b : Buffer) : Except Fault Matching := do
  return { leads := ← Inspect.textList (b.setting "vhdl.autoconnect_port_prefix" (.list []))
           tails := ← Inspect.textList (b.setting "vhdl.autoconnect_port_suffix" (.list []))
           extendsFront := b.flag "vhdl.autoconnect_allow_prefix" false
           extendsBack := b.flag "vhdl.autoconnect_allow_suffix" false }

/-- The connections of the ports of a unit in a source, if it has an architecture. -/
def connectIn (source : String) (s : Except Fault Matching) (ports : List Entry) :
    Except Fault Connections := do
  match ← Design.architecture? source Pattern.Node.anyName with
  | none => return {}
  | some architecture =>
    match ← Design.interface? source Pattern.Node.anyName with
    | none => throw (.noEntry (Text.quoted "port"))
    | some interface => connect (← s) (namesOf interface architecture) ports

/-- The connections of the ports of a unit in a buffer, if the buffer wants them. -/
def connectionsOf (id : Nat) (ports : Option (List Entry)) : Act Connections := do
  let b ← buffer id
  if !b.flag "vhdl.autoconnect" false then return {}
  match ports with
  | none => throw (.noEntry (Text.quoted "port"))
  | some ports =>
    if ports.isEmpty then return {}
    lift (connectIn (← contents id) (matchingOf b) ports)

def partOptions : Pattern.Options :=
  { ignoreCase := true, dotAll := true, multiline := true }

def architectureLine : Pattern.Regex :=
  open Pattern Pattern.Node in
  Regex.ofNode partOptions
    (start ++ gap ++ lit "architecture" ++ gap1 ++ identifier ++ gap1 ++ lit "of" ++ gap1 ++
      identifier ++ gap1 ++ lit "is" ++ captured (few .any) ++ stop)

def beginWord : Pattern.Regex :=
  open Pattern Pattern.Node in
  Regex.ofNode partOptions (edge ++ lit "begin" ++ edge)

def lastDeclaration : Pattern.Regex :=
  open Pattern Pattern.Node in
  Regex.ofNode partOptions
    (lit ";" ++ many1 (.set true [.char ';']) ++ edge ++ lit "begin" ++ edge)

/-- Where new declarations go, if the buffer has an architecture: behind the last declaration, before
the word behind the declarations, or behind the header. -/
def declarationPlace? (id : Nat) : Act (Option Int) := do
  let header ← find id architectureLine 0
  if header.isEmpty then return none
  let word ← find id beginWord header.b
  let last ← find id lastDeclaration header.b
  if 0 < last.a && last.a < word.a - 1 then return some (last.a + 1)
  else if 0 < word.a && header.b < word.a - 1 then return some (word.a - 1)
  else return some header.b

def insertDeclarations (id : Nat) (declarations : String) : Act String := do
  match ← declarationPlace? id with
  | some p =>
    changeBuffer id (·.insert p ("\n" ++ declarations))
    return "Declaring " ++ toString (Text.lines declarations).length ++ " signals\n"
  | none => return "Unable to find declaration region:\n" ++ declarations

def linkReport (links mismatches : List (String × String)) : String :=
  (if links.isEmpty then ""
    else
      "Non-perfect name match for " ++ toString links.length ++ " port(s) : \x7b" ++
        Text.join ", " (links.map fun (port, name) => Text.quoted port ++ ": " ++ Text.quoted name) ++
        "\x7d\n") ++
  (if mismatches.isEmpty then ""
    else
      "Found " ++ toString mismatches.length ++ " mismatch(es) for port(s): [" ++
        Text.join ", " (mismatches.map fun (port, _) => Text.quoted port) ++ "]\n")

def insertInstance (id : Nat) (request : Request) : Act Unit := do
  let connections ← connectionsOf id request.ports
  let b ← buffer id
  let style : Style :=
    { isSnippet := b.flag "vhdl.instance_as_snippet" false
      lead := b.setting "vhdl.instance_prefix" (.text "")
      tail := b.setting "vhdl.instance_suffix" (.text "") }
  let (text, links) ←
    lift (skeleton style request.unit request.values request.ports connections.links)
  if style.isSnippet then insertSnippet id text
  else
    let r ← lift b.cursor
    changeBuffer id (·.insert (b.line r).a text)
  let declared ←
    if connections.declarations.isEmpty || style.isSnippet then pure ""
    else insertDeclarations id connections.declarations
  let report := declared ++ linkReport links connections.mismatches
  if !report.isEmpty then printToPanel report "SmartVHDL"

end VhdlWorkbench.Instantiate
