import VhdlWorkbench.Design.Interface
import VhdlWorkbench.Design.Instance
import VhdlWorkbench.Editor.Buffer
import VhdlWorkbench.Editor.Event
import VhdlWorkbench.Files.Cache
import VhdlWorkbench.Scheme.Document

/-!
The workspace: buffers, window, files, index and memory. What an action has done before it fails stays done.
-/

namespace VhdlWorkbench.Editor

structure IndexEntry where
  file : String
  display : String
  row : Int
  col : Int
deriving DecidableEq, Repr

/-- The hierarchy that was shown last: the files of its units, the view and the file of its top, and the
top's name. -/
structure HierarchyState where
  files : List (String × String) := []
  view : Option Nat := none
  file : Option String := some ""
  name : String := ""

structure OutlineState where
  view : Nat
  settings : List (String × Json)
  /-- The view and the file that the outline is of. -/
  subject : Option (Nat × Option String) := none
  /-- The units that have nothing below them. -/
  leaves : List String := []
  phantoms : Option (List Phantom) := none
  hasPhantoms : Bool := false

/-- The view and the file that the outline is of, once they are known. -/
def OutlineState.demandSubject (o : OutlineState) : Except Fault (Nat × Option String) :=
  match o.subject with
  | some subject => .ok subject
  | none => .error (.noEntry (Text.quoted "info"))

inductive LoadAction where
  /-- Goes to an instance of a unit, or to its architecture. -/
  | showUnit (view : Nat) (unit label : String)
  | showName (view : Nat) (name : String)
deriving DecidableEq, Repr

inductive Choice where
  /-- A file of the list with the given key, for a view. -/
  | ofFile (view : Nat) (list : Option String)
  | ofUnit (view : Nat) (file : String) (units : List String)

structure Prompt where
  view : Nat
  file : String
  interface : Design.Interface
  /-- The values given so far, with their names. -/
  values : List (String × Option String) := []
  asked : Nat := 0
  /-- Defaults are written out too. -/
  explicit : Bool := false

structure PopupStyle where
  css : String := ""
  flags : Nat := 0
  showReferences : Json := .bool true
  /-- The colour of operators, once it has been looked up. -/
  operatorColour : Option (Option String) := none

/-- What has been read from files, by file, name, time of change and, for declarations, kinds. -/
structure FileCaches where
  declarations : Files.Cache (String × String × Int × Int) Declaration := {}
  instances : Files.Cache (String × String × Int) (Option (List Design.Instance)) := {}
  interfaces : Files.Cache (String × String × Int) (Option Design.Interface) := {}

/-- The editor and what the commands remember. -/
structure Workspace where
  buffers : List Buffer := []
  active : Option Nat := none
  focusedGroup : Int := 0
  layout : WindowLayout := {}
  windowSettings : List (String × Json) := []
  folders : List String := []
  project : Option String := none
  platform : Files.Platform := .linux
  edition : Scheme.Edition := {}
  preferences : List (String × Json) := []
  vhdlSettings : List (String × Json) := []
  store : Files.Store := {}
  resources : List (String × Option String) := []
  index : List (String × List IndexEntry) := []
  references : List (String × List IndexEntry) := []
  caches : FileCaches := {}
  popups : PopupStyle := {}
  outline : Option OutlineState := none
  hierarchy : HierarchyState := {}
  pending : List (String × LoadAction) := []
  unitFiles : List (Option String × List String) := []
  choice : Option Choice := none
  prompt : Option Prompt := none
  /-- How often the editor has been asked about its texts in this step. -/
  questions : Nat := 0
  /-- The events of this step, the last one first. -/
  log : List Event := []

abbrev Act (α : Type) := ExceptT Fault (StateM Workspace) α

namespace Act

def lift {α : Type} (e : Except Fault α) : Act α :=
  ExceptT.mk (pure e)

def emit (e : Event) : Act Unit :=
  modify fun w => { w with log := e :: w.log }

def print (s : String) : Act Unit :=
  (Text.splitOn s '\n').forM fun line => emit (.print line)

def status (s : String) : Act Unit :=
  emit (.status s)

def questionLimit : Nat := 20000

def ask : Act Unit := do
  let w ← get
  if questionLimit ≤ w.questions then throw .hostLimit
  set { w with questions := w.questions + 1 }

def buffer (id : Nat) : Act Buffer := do
  match (← get).buffers.find? (·.id == id) with
  | some b => return b
  | none => throw .noMember

def changeBuffer (id : Nat) (f : Buffer → Buffer) : Act Unit :=
  modify fun w => { w with buffers := w.buffers.map fun b => if b.id == id then f b else b }

def textOf (id : Nat) (r : Region) : Act String := do
  ask
  return (← buffer id).textOf r

def contents (id : Nat) : Act String := do
  ask
  return (← buffer id).contents

/-- The text up to the end of the line that holds a region. -/
def textThrough (id : Nat) (r : Region) : Act String := do
  let b ← buffer id
  textOf id ⟨0, (b.line r).b⟩

def scopeAt (id : Nat) (p : Int) : Act String := do
  ask
  return (← buffer id).scopeName p

def next (id : Nat) (p : Int) (kinds : List PlaceKind) : Act Int := do
  ask
  return (← buffer id).next p kinds

def previous (id : Nat) (p : Int) (kinds : List PlaceKind) : Act Int := do
  ask
  return (← buffer id).previous p kinds

def find (id : Nat) (r : Pattern.Regex) (start : Int) : Act Region := do
  ask
  return (← buffer id).find r start

def isKind (id : Nat) (p : Int) (kind : PlaceKind) : Act Bool := do
  return (← buffer id).isKind p kind

def moveCursor (id : Nat) (p : Int) : Act Unit := do
  changeBuffer id fun b => { b with selection := [.point p] }
  emit (.center id p)

def setSetting (id : Nat) (key : String) (value : Json) : Act Unit := do
  emit (.setting (.buffer id) key value)
  changeBuffer id fun b => { b with settings := Table.put b.settings key value }

def setWindowSetting (key : String) (value : Json) : Act Unit := do
  emit (.setting .window key value)
  modify fun w => { w with windowSettings := Table.put w.windowSettings key value }

def note (target : Target) (name : String) (args : Json) : Act Unit :=
  emit (.command target name args)

def insertSnippet (id : Nat) (contents : String) : Act Unit := do
  note (.buffer id) "insert_snippet" (.object [("contents", .text contents)])
  changeBuffer id (·.type contents)

def insertPlain (id : Nat) (text : String) : Act Unit := do
  note (.buffer id) "insert_snippet" (.object [("contents", .text "$x"), ("x", .text text)])
  changeBuffer id (·.type text)

def clearText (id : Nat) : Act Unit := do
  note (.buffer id) "select_all" .null
  changeBuffer id fun b => { b with selection := [⟨0, b.size⟩] }
  note (.buffer id) "right_delete" .null
  changeBuffer id (·.deleteSelection)

def setSyntax (id : Nat) (file : String) : Act Unit := do
  emit (.syntaxFile id file)
  let base :=
    if Text.endsWith file "navbar.sublime-syntax" then "text.hierarchy-vhdl" else "text.result-vhdl"
  changeBuffer id fun b => { b with base }

def setScratch (id : Nat) : Act Unit :=
  emit (.scratch id true)

def setName (id : Nat) (name : String) : Act Unit :=
  changeBuffer id fun b => { b with name }

def addBuffer (make : Nat → Buffer) : Act Nat := do
  let w ← get
  let id := w.buffers.length + 1
  set { w with buffers := w.buffers ++ [make id] }
  return id

def newFile : Act Nat := do
  let group := (← get).focusedGroup
  let id ← addBuffer fun id => { id, base := "text.plain", selection := [.point 0], group }
  modify fun w => { w with active := some id }
  emit (.newFile id)
  return id

def newPanel (name text : String) : Act Nat :=
  addBuffer fun id =>
    { id, isPanel := true, name, base := "text.plain", text := text.toList.toArray
      selection := [.point 0] }

def focus (id : Nat) : Act Unit := do
  emit (.focusView id)
  modify fun w => { w with active := some id }

def focusGroup (group : Int) : Act Unit := do
  emit (.focusGroup group)
  modify fun w => { w with focusedGroup := group }

def setLayout (layout : WindowLayout) : Act Unit := do
  emit (.layout layout)
  modify fun w => { w with layout }

def viewsInGroup (group : Int) : Act (List Buffer) := do
  return (← get).buffers.filter fun b => !b.isPanel && b.group == group

def viewOf? (file : String) : Act (Option Nat) := do
  return ((← get).buffers.find? fun b => !b.isPanel && b.file == some file).map (·.id)

/-- A row or column behind a colon at the end of a name. -/
def positionEnding : Pattern.Regex :=
  let number := Pattern.Node.maybe (.char '-') ++ Pattern.Node.many1 (.category false .digit)
  Pattern.Regex.ofNode {}
    (Pattern.Node.lit ":" ++ number ++ Pattern.Node.lit ":" ++ number ++
      .anchor .textEnd)

def withoutPosition (name : String) : String :=
  match positionEnding.search? name with
  | some m => String.ofList (name.toList.take m.start)
  | none => name

/-- Opens a file: its view becomes active, or a new view with its text if it has none. -/
def openFile (name : String) (hasPosition : Bool) : Act Nat := do
  emit (.openFile name (if hasPosition then 1 else 0))
  let file := if hasPosition then withoutPosition name else name
  match ← viewOf? file with
  | some id =>
    modify fun w => { w with active := some id }
    return id
  | none =>
    let w ← get
    let text := ((w.store.read file).toOption).getD ""
    let id ← addBuffer fun id =>
      { id, file := some file, text := text.toList.toArray, selection := [.point 0]
        group := w.focusedGroup }
    modify fun w => { w with active := some id }
    return id

def printToPanel (text name : String) : Act Unit := do
  let id ← newPanel name ""
  emit (.outputPanel name id)
  note (.buffer id) "append" (.object [("characters", .text text)])
  changeBuffer id fun b => b.insert b.size text
  note .window "show_panel" (.object [("panel", .text ("output." ++ name))])

def symbolEntries (name : String) : Act (List IndexEntry) := do
  return ((← get).index.lookup name).getD []

def platformForm (path : String) : Act String := do
  return Files.platformForm (← get).platform path

end Act

end VhdlWorkbench.Editor
