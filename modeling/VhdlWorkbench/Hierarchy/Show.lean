import VhdlWorkbench.Hierarchy.Tree
import VhdlWorkbench.Inspect.SourceFile
import VhdlWorkbench.Inspect.Unit

/-!
Showing the hierarchy below the unit at the cursor, and going from its text to the sources.
-/

namespace VhdlWorkbench.Hierarchy

open Editor Editor.Act Inspect

def resultSyntax : String :=
  "Packages/Smart VHDL/Find Results VHDL.hidden-tmLanguage"

def resolveIn (type : String) : List String → Act Resolution
  | [] => return .component
  | file :: rest => do
    let file ← platformForm file
    match ← instancesInFile file type with
    | some instances =>
      modify fun w => { w with
        hierarchy := { w.hierarchy with files := Table.put w.hierarchy.files type file } }
      return .architecture file instances
    | none => resolveIn type rest

def resolve (type : String) : Act Resolution := do
  match (← symbolEntries type).map (·.file) with
  | [] => return .unresolved
  | files => resolveIn type files.eraseDups

def showBelow (id : Nat) (unit : String) (instances : List Design.Instance) : Act Unit := do
  let b ← buffer id
  modify fun w => { w with hierarchy := { files := [], view := some id, file := b.file, name := unit } }
  let found ← explore resolve (← get).index.length unit instances
  match treeText? found unit with
  | none =>
    print "[VHDL.navigation] Hierarchy with more than 20 level not supported !"
    throw .wrongKind
  | some text =>
    if b.flag "vhdl.hierarchy_new_window" false then note .application "new_window" .null
    let view ← newFile
    setSetting view "tab_size" (.int 2)
    setName view (unit ++ " Hierarchy")
    setSyntax view resultSyntax
    setScratch view
    insertSnippet view text

def showHierarchy (id : Nat) : Act Unit := do
  let unit ← unitName id
  if unit.isEmpty then print "[VHDL.navigation] No entity/architecture found !"
  else
    match ← lift (Design.instances? (← contents id) unit) with
    | none | some [] => print "[VHDL.navigation] No hierarchy found !"
    | some instances =>
      status "Show Hierarchy can take some time, please wait ..."
      showBelow id unit instances

def symbolPlace? (id : Nat) (admits : String → Bool) : Act (Option Int) := do
  return ((← buffer id).symbols.find? fun (_, name) => admits name).map fun (r, _) => r.a

/-- Goes to an instance in a view, or to the architecture of a unit if no instance is given. -/
def gotoSymbol (id : Nat) (unit label : String) : Act Unit := do
  let place ←
    if label.isEmpty then symbolPlace? id fun name => Text.startsWith name (unit ++ " :")
    else symbolPlace? id (· == label)
  match place with
  | none => return
  | some p =>
    let b ← buffer id
    let (row, col) := b.rowCol p
    moveCursor id (b.textPoint row col)

/-- The unit that a word of a hierarchy leads to, the instance in it, and the unit's file. -/
structure Destination where
  unit : String
  label : String := ""
  file : Option String := none

/-- The destination of an instance in a hierarchy: its parent, by the text before it; nothing if the
line is not indented. -/
def instanceDestination? (h : HierarchyState) (label line before : String) : Option Destination :=
  let blanks := line.length - (Text.trimLeft line).length
  if blanks < 2 then none
  else if blanks == 2 then some { unit := h.name, label, file := h.file }
  else
    match parentType? (blanks - 2) before with
    | some parent => some { unit := parent, label, file := h.files.lookup parent }
    | none => some { unit := label }

def visit (d : Destination) (file : String) : Act Unit := do
  match ← viewOf? file with
  | some view =>
    focus view
    gotoSymbol view d.unit d.label
  | none =>
    let view ← openFile file false
    modify fun w => { w with
      pending := Table.put w.pending file (.showUnit view d.unit d.label) }

def leave : Act Unit :=
  note .window "goto_definition" .null

def follow (d : Destination) : Act Unit :=
  match d.file with
  | some file => if file.isEmpty then leave else visit d file
  | none => leave

/-- Goes from a word of a hierarchy to the source that it stands for; elsewhere the editor goes to the
definition. -/
def gotoDefinition (id : Nat) : Act Unit := do
  let b ← buffer id
  let r ← lift b.cursor
  let r := if r.isEmpty then b.word r else r
  let scope ← scopeAt id r.a
  let word ← textOf id r
  let h := (← get).hierarchy
  if !Text.contains scope "text.result-vhdl" then leave
  else if Text.contains scope "entity.name" then
    let line ← textOf id (b.line r)
    let before ←
      if 2 < line.length - (Text.trimLeft line).length then textOf id ⟨0, r.a⟩ else pure ""
    match instanceDestination? h word line before with
    | none =>
      print
        "[VHDL.navigation] Hierarchy buffer corrupted : Invalid position for an instance !"
    | some d => follow d
  else if Text.contains scope "storage.name" then
    follow { unit := word, file := h.files.lookup word }
  else if Text.contains scope "keyword.module" then follow { unit := h.name, file := h.file }
  else leave

end VhdlWorkbench.Hierarchy
