import VhdlWorkbench.Declaration.Basic
import VhdlWorkbench.Fault
import VhdlWorkbench.Pattern.Regex
import VhdlWorkbench.Text.Lowercase
import VhdlWorkbench.Text.Segment

/-!
From a matched form to declarations, one for each identifier; all of them carry the name and the text of the last one.
-/

namespace VhdlWorkbench.Declaration

open Pattern

/-- Every run of blanks becomes one space; `blank` tells that the last character was a blank. -/
def collapseFrom (blank : Bool) : List Char → List Char
  | [] => []
  | c :: rest =>
    if Text.isBlank c then
      if blank then collapseFrom true rest else ' ' :: collapseFrom true rest
    else c :: collapseFrom false rest

def collapse (s : String) : String :=
  String.ofList (collapseFrom false s.toList)

def nonempty? (s : Option String) : Option String :=
  s.filter (!·.isEmpty)

/-- The tag of a match: the word that introduces the declaration, or else what its parts show. -/
def tagOf (m : Match) : String :=
  match nonempty? (m.named? "tag") with
  | some tag => Text.toLower tag
  | none => if m.hasName "port" then "port" else "generic"

def directionOf (m : Match) : Option String :=
  match nonempty? (m.named? "dir") with
  | some dir => some (Text.toLower dir)
  | none =>
    if (nonempty? (m.named? "tag")).isSome then none else m.named? "port"

def shared (name : String) (m : Match) : Declaration :=
  let tag := tagOf m
  let type := nonempty? (m.named? "type")
  { text := some ""
    type := if tag == "alias" && type.isNone then some "alias" else type
    name := name
    tag := tag
    value := if m.hasName "value" then some (Text.trim (m.named "value")) else none
    direction := directionOf m }

def addIdentifier (m : Match) (listed type identifier : String) (d : Declaration) : Declaration :=
  let name := Text.trim identifier
  let text := Text.replaceFirst (Text.trim m.text) listed name
  if d.tag == "port" then
    let text := "port " ++ text
    if Text.count m.text '(' < Text.count m.text ')' then
      { d with
        text := some (collapse (Text.eraseLast text ')'))
        type := some (collapse (Text.eraseLast type ')'))
        name := name }
    else { d with text := some (collapse text), type := some (collapse type), name := name }
  else { d with text := some (collapse text), type := some (collapse type), name := name }

def addIdentifiers (m : Match) (listed : String) (d : Declaration) :
    List String → Except Fault Declaration
  | [] => .ok d
  | identifier :: rest =>
    match d.type with
    | none => .error .wrongKind
    | some type => addIdentifiers m listed (addIdentifier m listed type identifier d) rest

/-- The declarations of a match: those of all its identifiers, or that of `name` when it is given. -/
def ofMatch (name : String) (m : Match) : Except Fault (List Declaration) := do
  let d := shared name m
  let kind := (d.type.map Text.toLower).getD ""
  if kind == "entity" then
    return [{ d with text := some ("entity " ++ d.name) }]
  if kind == "architecture" then
    return [{ d with text := some ("architecture " ++ d.tag ++ " of " ++ d.name) }]
  match m.named? "name" with
  | none => .error (if name.isEmpty then .noMember else .wrongKind)
  | some listed =>
    let identifiers := if name.isEmpty then Text.splitOn (Text.replaceChar listed ' ' "") ',' else [name]
    let d ← addIdentifiers m listed d identifiers
    return identifiers.map fun _ => d

def allOfForm (options : Options) (form : Node) (text : String) :
    Except Fault (List Declaration) := do
  let found ← ((Regex.ofNode options form).matches_ text).mapM (ofMatch "")
  return found.flatten

end VhdlWorkbench.Declaration
