import VhdlWorkbench.Declaration.Record
import VhdlWorkbench.Inspect.SourceFile

/-!
Declarations of types and of parts of records, in the buffer and in the files of the index.
-/

namespace VhdlWorkbench.Inspect

open Editor Editor.Act

def hasType (d : Declaration) : Bool :=
  match d.type with
  | some t => !t.isEmpty
  | none => false

def hasEnding (endings : List String) (file : String) : Bool :=
  endings.any (Text.endsWith (Text.toLower file))

def textList : Json → Except Fault (List String)
  | .list items => items.mapM fun item =>
    match item with
    | .text s => .ok s
    | _ => .error .wrongKind
  | .text s => .ok (s.toList.map Char.toString)
  | .object members => .ok (members.map (·.1))
  | _ => .error .wrongKind

def sourceEndings (b : Buffer) : Except Fault (List String) :=
  textList (b.setting "vhdl.ext" (.list [.text "vhd", .text "vhdl"]))

/-- The declaration of a name in the first file of the index, of those not seen before, that has one
with a type; where it is found is noted on request. -/
def searchIndex (endings : List String) (name : String) (note : Bool) :
    List IndexEntry → List String → Declaration → Act Declaration
  | [], _, last => return last
  | entry :: rest, seen, last => do
    let file ← platformForm entry.file
    if seen.contains file then searchIndex endings name note rest seen last
    else if !hasEnding endings file then searchIndex endings name note rest (file :: seen) last
    else
      let d ← declarationInFile file name 4
      if hasType d then
        if note then noteLocation file name 4 d ⟨entry.file, entry.row, entry.col⟩ else return d
      else searchIndex endings name note rest (file :: seen) d

/-- The declaration of a type, first above a region of the buffer and then in the index. -/
def typeInfo (id : Nat) (type : String) (region : Option Region) : Act Declaration := do
  match region with
  | none => throw .noBuffer
  | some r =>
    if r.isEmpty then throw .noBuffer
    let d ← lift (Declaration.lookup (← textThrough id r) type 4)
    if hasType d then return d
    searchIndex ["vhd", "vhdl"] type true (← symbolEntries type) [] d

/-- The field of a record with a name, in any case, and the row of the field when the rows count on
from the record's. -/
def fieldNamed? (name : String) (row : Int) : List Declaration → Option (Declaration × Int)
  | [] => none
  | f :: rest =>
    if Text.toLower f.name == Text.toLower name then some (f, row)
    else fieldNamed? name (row + 1) rest

def partOf (d : Declaration) (name : String) : Declaration :=
  if d.type != some "record" then d
  else
    let row := match d.location with
      | some l => l.row + 1
      | none => 0
    match fieldNamed? name row (Declaration.recordFields (d.text.getD "")) with
    | none => d
    | some (f, row) => { f with location := d.location.map fun l => { l with row } }

def typeOfParts (id : Nat) (region : Option Region) : List String → Declaration → Act Declaration
  | [], d => return d
  | name :: rest, d => do
    match d.type with
    | none => typeOfParts id region rest d
    | some type =>
      if type.isEmpty then typeOfParts id region rest d
      else typeOfParts id region rest (partOf (← typeInfo id type region) name)

/-- The declaration of a name with dots: the first part is looked up in the text, the others are parts
of records. -/
def typeInHierarchy (id : Nat) (name : String) (text : Option String) (region : Option Region) :
    Act Declaration := do
  let parts := (Text.splitOn name '.').map fun part => (Text.splitOn part '[').headD ""
  let isBlankText := match text with
    | none => true
    | some s => s.isEmpty
  let text ← match isBlankText, region with
    | true, some r => if r.isEmpty then pure text else do pure (some (← textThrough id r))
    | _, _ => pure text
  match text, parts with
  | some text, first :: rest => do
    typeOfParts id region rest (← lift (Declaration.lookup text first 4))
  | _, _ => throw .wrongKind

/-- The declaration that a lookup accepts: one with a type that is not a mere name of a type. -/
def isAccepted (d : Declaration) : Bool :=
  hasType d && d.tag != "typedef"

/-- The declaration of a name in the first file of the index that has an accepted one. -/
def acceptFromIndex (endings : List String) (name : String) (kinds : Int) :
    List IndexEntry → Option Declaration → Act (Option Declaration)
  | [], last => return last
  | entry :: rest, last => do
    let file ← platformForm entry.file
    if !hasEnding endings file then acceptFromIndex endings name kinds rest last
    else
      let d ← declarationInFile file name kinds
      if isAccepted d then
        return some (← noteLocation file name kinds d ⟨file, entry.row, entry.col⟩)
      else acceptFromIndex endings name kinds rest (some d)

def lookupType (id : Nat) (name : String) (kinds : Int) : Act (Option Declaration) := do
  let b ← buffer id
  let entries ← symbolEntries name
  if entries.isEmpty then return none
  let platform := (← get).platform
  let own := entries.find? fun e => some (Files.platformForm platform e.file) == b.file
  let found ← match own, b.file with
    | some entry, some file => do
      pure (some (entry, file, ← declarationInFile file name kinds))
    | _, _ => pure none
  let others (last : Option Declaration) : Act (Option Declaration) := do
    acceptFromIndex (← lift (sourceEndings b)) name kinds entries last
  match found with
  | some (entry, file, d) =>
    if isAccepted d then
      return some (← noteLocation file name kinds d ⟨file, entry.row, entry.col⟩)
    else others (some d)
  | none => others none

end VhdlWorkbench.Inspect
