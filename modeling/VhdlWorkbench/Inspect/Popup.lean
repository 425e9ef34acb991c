import VhdlWorkbench.Editor.Scope
import VhdlWorkbench.Inspect.Highlight
import VhdlWorkbench.Inspect.Symbol
import VhdlWorkbench.Inspect.TypeInfo
import VhdlWorkbench.Number.Basic

/-!
The pop-up on a name.
-/

namespace VhdlWorkbench.Inspect

open Editor Editor.Act

/-- What is declared under a name: its text, if there is any, and what is known about it; the region
may have been widened on the way. -/
structure Finding where
  text : Option String
  declaration : Option Declaration
  region : Region

def instantiatedUnit : Pattern.Regex :=
  open Pattern Pattern.Node in
  Regex.ofNode { ignoreCase := true, dotAll := true }
    (Node.optional (.group (named "scope" identifier ++ lit ".")) ++ named "mname" identifier ++ gap1 ++
      oneOf [lit "port", lit "generic"])

def recordBreak : Pattern.Regex :=
  open Pattern Pattern.Node in
  Regex.ofNode {} (captured (choice [edge ++ lit "record" ++ edge, lit ";"]))

def unitDeclaration (scope name tag : String) : Declaration :=
  let kind := if Text.contains scope "component" then "component" else "entity"
  { text := some (kind ++ " " ++ name), type := some kind, name, tag }

def portOfInstance (id : Nat) (name scope : String) (region : Region) : Act Finding := do
  let kind ←
    if Text.contains scope "meta.block.entity_instantiation" then
      pure "meta.block.entity_instantiation"
    else if Text.contains scope "meta.block.component_instantiation" then
      pure "meta.block.component_instantiation"
    else throw .unset
  let region ← expandToScope id kind region
  match instantiatedUnit.search? (← textOf id region) with
  | none => return ⟨some "", none, region⟩
  | some m =>
    let unit := m.named "mname"
    match (← lookupSymbol id unit (unitBlock unit)).found with
    | none => return ⟨some "", none, region⟩
    | some block =>
      let d ← lift (Declaration.lookup (block.named "content") name 4)
      return ⟨d.text, some d, region⟩

def findingAt (id : Nat) (name : String) (region : Region) : Act Finding := do
  let scope ← scopeAt id region.a
  let has := Text.contains scope
  let found (d : Declaration) : Finding := ⟨d.text, some d, region⟩
  if has "variable.parameter.port" then portOfInstance id name scope region
  else if has "entity.name.type.entity" || has "entity.name.type.component" then
    return found (unitDeclaration scope name "decl")
  else if has "storage.type.entity.reference" || has "storage.type.component.reference" then
    return found (unitDeclaration scope name "reference")
  else if has "storage.type.userdefined" then
    let d ← typeInfo id name (some region)
    if d.type == some "record" then
      return { found d with text := d.text.map (recordBreak.replaceBy (·.text ++ "<br>")) }
    else return found d
  else if Text.contains name "." then
    return found (← typeInHierarchy id name none (some region))
  else return found (← lift (Declaration.lookup (← textThrough id region) name 4))

def highlightIn (id : Nat) (s : String) (addLink : Bool) (d : Option Declaration) : Act String := do
  let subject := d.map (·.toEntry)
  let reference ← match referencedUnit? s subject with
    | none => pure unknownPlace
    | some unit => do
      let place ← lookupSymbol id unit (unitHeader unit)
      pure (fileLink place.file place.row place.col)
  lift (highlight s addLink subject reference)

/-- Goes from a name back over the names and dots before it. -/
def hierarchyStart (id : Nat) : Nat → Int → Act Int
  | 0, p => return p
  | fuel + 1, p => do
    if p ≤ 1 then return p
    if (← textOf id ⟨p - 1, p⟩) != "." then return p
    let p ← if (← textOf id ⟨p - 2, p - 1⟩) == ")" then previous id (p - 3) [.wordStart] else pure p
    if ← isKind id (p - 2) .wordStart then hierarchyStart id fuel (p - 2)
    else hierarchyStart id fuel (← previous id (p - 2) [.wordStart])

def nameRegion (id : Nat) (region : Region) : Act Region := do
  let b ← buffer id
  let region ←
    if region.isEmpty then pure (b.word region)
    else do
      let start ←
        if ← isKind id region.a .wordStart then pure region.a else previous id region.a [.wordStart]
      let stop ← if ← isKind id region.b .wordEnd then pure region.b else next id region.b [.wordEnd]
      pure ⟨start, stop⟩
  return { region with a := ← hierarchyStart id (b.size + 1) region.a }

/-- The fields of a record as further lines of markup. -/
def fieldLines (id : Nat) (d : Declaration) (region : Region) : Act String := do
  match d.type with
  | none => return ""
  | some type =>
    let base := Text.toLower ((Text.splitOn type '(').headD "")
    if type.isEmpty || !(["signal", "port"].contains d.tag) || plainTypes.contains base then return ""
    let record ← typeInfo id type (some region)
    if record.type != some "record" then return ""
    let lines ← (Declaration.recordFields (record.text.getD "")).mapM fun f => do
      let s ← highlightIn id (f.text.getD "") false none
      return "<br><span class=\"extra-info\">" ++ Text.times 4 "&nbsp;" ++ s ++ "</span>"
    return String.join lines

def referenceLines (d : Declaration) : Act String := do
  let w ← get
  let isUnit := d.type == some "entity" || d.type == some "component"
  if !isUnit || d.name.isEmpty || !w.popups.showReferences.isTrue then return ""
  match (w.references.lookup d.name).getD [] with
  | [] => return ""
  | entries =>
    let links := entries.map fun e =>
      "<a href=\"" ++ fileLink e.file e.row e.col ++ "\" class=\"ref_links\">" ++
        Files.baseName e.file ++ "</a>"
    return "<h1><br>Reference:</h1><span>" ++ Text.join "<br>" links ++ "</span>"

def showPopup (id : Nat) (region : Region) (location : Int) : Act Unit := do
  let region ← nameRegion id region
  let name ← textOf id region
  let finding ← findingAt id name region
  match finding.text, finding.declaration with
  | some text, some d =>
    if text.isEmpty then status ("No definition found for " ++ name)
    else
      let s ← highlightIn id text true (some d)
      let fields ← fieldLines id d finding.region
      let references ← referenceLines d
      let style := (← get).popups
      let html := "<style>" ++ style.css ++ "</style><div class=\"content\">" ++ s ++ fields ++
        references ++ "</div>"
      emit (.popup id html location style.flags 500)
  | _, _ => status ("No definition found for " ++ name)

/-- The largest size of a text with pop-ups; no number means no limit. -/
def sizeLimit (b : Buffer) : Except Fault Number :=
  match b.setting "vhdl.hover_max_size" (.int (-1)) with
  | .int n => .ok (.int n)
  | .bool v => .ok (.int (if v then 1 else 0))
  | .decimal d => .ok (.real d.toFloat)
  | .nonfinite x => .ok (.real x)
  | _ => .error .wrongKind

/-- The mouse rests on a place: shows the pop-up for the name there, in code that is not too large. -/
def hover (id : Nat) (p : Int) (overText : Bool) : Act Unit := do
  if !overText then return
  let b ← buffer id
  let limit ← lift (sizeLimit b)
  let unlimited := !limit.lt (.int (-1)) && !Number.lt (.int (-1)) limit
  if limit.lt (.int b.size) && !unlimited then return
  let scope ← scopeAt id p
  if !Text.contains scope "source.vhdl" then return
  if ["comment", "string", "keyword"].any (Text.contains scope) then return
  showPopup id (b.word (.point p)) p

def portPattern (name : String) : Except Fault Pattern.Regex :=
  open Pattern Pattern.Node in
  orFault (Regex.build { ignoreCase := true, dotAll := true, multiline := true }
    (edge ++ .pasted name ++ edge ++
      Node.optional (captured (lit "," ++
        many1 (.set false [.category false .word, .category false .space, .char ',']))) ++
      gap ++ lit ":" ++ gap ++ captured (choice [lit "in", lit "out"])))

def objectPattern (kind name : String) : Except Fault Pattern.Regex :=
  open Pattern Pattern.Node in
  orFault (Regex.build { ignoreCase := true, dotAll := true, multiline := true }
    (start ++ many (.set false [.char ' ', .char '\t']) ++ .pasted kind ++ gap1 ++
      many (.set false [.category false .word, .category false .space, .char ',']) ++
      edge ++ .pasted name ++ edge))

def followLink (id : Nat) (href : String) : Act Unit := do
  match Text.splitOn href '@' with
  | "LOCAL" :: target :: _ =>
    match Text.splitOn target ':' with
    | kind :: name :: _ =>
      let r ← lift (if kind == "port" then portPattern name else objectPattern kind name)
      let found ← find id r 0
      if !found.isEmpty then moveCursor id found.a
    | _ => throw .noElement
  | _ :: file :: _ =>
    let _ ← openFile file true
  | _ => throw .noElement

end VhdlWorkbench.Inspect
