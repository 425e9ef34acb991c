import VhdlWorkbench.Files.Store
import VhdlWorkbench.Json.Lenient
import VhdlWorkbench.Markup.PropertyList
import VhdlWorkbench.Text.Quoted

/-!
Documents of colour schemes: JSON texts, merged from all resources of one name, or property lists, which are
converted.
-/

namespace VhdlWorkbench.Scheme

open Pattern Pattern.Node

/-- What the editor's version says about colour schemes. -/
structure Edition where
  version : Nat := 3211
deriving DecidableEq, Repr

def Edition.mergesResources (e : Edition) : Bool :=
  3150 ≤ e.version

def Edition.fontStyleKey (e : Edition) : String :=
  if 3151 ≤ e.version then "font_style" else "fontStyle"

def Edition.globalsKey (e : Edition) : String :=
  if 3152 ≤ e.version then "globals" else "defaults"

abbrev Document := List (String × Json)

def emptyDocument (e : Edition) : Document :=
  [("variables", .object []), (e.globalsKey, .object []), ("rules", .list [])]

def membersOf : Json → Except Fault (List (String × Json))
  | .object members => .ok members
  | _ => .error .noMember

def textOf : Json → Except Fault String
  | .text s => .ok s
  | _ => .error .noMember

/-- The parts of a value that one can go through: items, keys or characters. -/
def partsOf : Json → Except Fault (List Json)
  | .list items => .ok items
  | .object members => .ok (members.map fun (key, _) => .text key)
  | .text s => .ok (s.toList.map fun c => .text c.toString)
  | _ => .error .wrongKind

def entryOf (members : List (String × Json)) (key : String) : Except Fault Json :=
  match members.lookup key with
  | some value => .ok value
  | none => .error (.noEntry (Text.quoted key))

/-- The member with a key unless it is absent or null. -/
def present? (members : List (String × Json)) (key : String) : Option Json :=
  match members.lookup key with
  | some .null => none
  | value => value

def putInto (d : Document) (table key : String) (value : Json) : Except Fault Document := do
  match ← entryOf d table with
  | .object members => return Table.put d table (.object (Table.put members key value))
  | _ => throw .wrongKind

def addRule (d : Document) (rule : Json) : Except Fault Document := do
  match ← entryOf d "rules" with
  | .list rules => return Table.put d "rules" (.list (rules ++ [rule]))
  | _ => throw .noMember

def capital : Regex :=
  Regex.ofNode {} (.one (.set false [.range 'A' 'Z']))

/-- A name with an underscore and the small letter for each capital letter. -/
def snakeCase (name : String) : String :=
  capital.replaceBy (fun m => "_" ++ Text.toLower m.text) name

def convertRule (e : Edition) (item settings : List (String × Json)) : Json :=
  let part (from_ : List (String × Json)) (key new : String) : List (String × Json) :=
    (present? from_ key).toList.map fun value => (new, value)
  .object (part item "name" "name" ++ part item "scope" "scope" ++
    part settings "foreground" "foreground" ++ part settings "background" "background" ++
    part settings "selectionForeground" "selection_foreground" ++
    part settings "fontStyle" e.fontStyleKey)

/-- Takes an item of an old document over: global options without name and scope, or a rule. -/
def convertItem (e : Edition) (d : Document) (item : Json) : Except Fault Document := do
  let item ← membersOf item
  let d ←
    if (present? item "scope").isNone && (present? item "name").isNone then
      let options ← membersOf (← entryOf item "settings")
      options.foldlM (fun d (key, value) => putInto d e.globalsKey (snakeCase key) value) d
    else pure d
  match item.lookup "settings", present? item "scope" with
  | some settings, some _ => do addRule d (convertRule e item (← membersOf settings))
  | _, _ => return d

def convert (e : Edition) (value : Option Json) : Except Fault Document := do
  let members ← membersOf (value.getD .null)
  let others := members.filter (·.1 != "settings")
  let d := others.foldl (fun d (key, value) => Table.put d key value) (emptyDocument e)
  (← partsOf (← entryOf members "settings")).foldlM (convertItem e) d

def merge (e : Edition) (d : Document) (added : Json) : Except Fault Document := do
  let added ← membersOf added
  let table (key : String) := membersOf ((added.lookup key).getD (.object []))
  let d ← (← table "variables").foldlM (fun d (key, value) => putInto d "variables" key value) d
  let d ← (← table e.globalsKey).foldlM (fun d (key, value) => putInto d e.globalsKey key value) d
  (← partsOf ((added.lookup "rules").getD (.list []))).foldlM addRule d

def decode (text : String) : Except Fault Json :=
  match Json.parse? text with
  | some value => .ok value
  | none => .error .notJson

/-- The new document in a file, which may have comments and dangling commas. -/
def decodeFile (r : Files.Resources) (path : String) : Except Fault Json := do
  decode (Json.sanitize false (← r.store.readRaw (Files.packageFile path)))

/-- The new document of a resource; a resource without a text is read from its file. -/
def decodeResource (r : Files.Resources) (path : String) : Except Fault Json :=
  match r.load? path with
  | some text => decode text
  | none => decodeFile r path

def isNewForm (path : String) : Bool :=
  Text.endsWith path ".sublime-color-scheme" || Text.endsWith path ".hidden-color-scheme"

structure Loaded where
  document : Document
  /-- The document has the old form. -/
  converted : Bool
  merged : List String := []

/-- The resources to be merged for a scheme, those of the user last. -/
def resourcesFor (r : Files.Resources) (name : String) : List String :=
  let ending :=
    if Text.endsWith name ".hidden-color-scheme" then ".hidden-color-scheme"
    else ".sublime-color-scheme"
  let (user, others) := (r.named (Files.withoutExtension name ++ ending)).partition
    (Text.startsWith · "Packages/User/")
  others ++ user

def load (e : Edition) (platform : Files.Platform) (r : Files.Resources) (scheme : String) :
    Except Fault Loaded := do
  let path := Text.replaceChar scheme '\\' "/"
  let name := Files.baseName path
  let start ←
    if e.mergesResources && isNewForm scheme then
      pure { document := emptyDocument e, converted := false : Loaded }
    else do
      let text ← match r.load? (Files.resourceForm platform path) with
        | some text => pure text
        | none => r.store.readRaw (Files.packageFile path)
      pure { document := ← convert e (← Markup.readList text), converted := true : Loaded }
  if !e.mergesResources then return start
  let merged ← (resourcesFor r name).foldlM (fun loaded override => do
    return { loaded with
      document := ← merge e loaded.document (← decodeResource r override)
      merged := loaded.merged ++ [override] }) start
  if merged.merged.isEmpty && isNewForm path && Text.startsWith path "Packages/" then
    return { merged with
      document := ← merge e merged.document (← decodeFile r path)
      merged := [path] }
  else return merged

end VhdlWorkbench.Scheme
