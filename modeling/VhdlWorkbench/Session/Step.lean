import VhdlWorkbench.Completion.Query
import VhdlWorkbench.Inspect.Popup
import VhdlWorkbench.Inspect.PopupStyle
import VhdlWorkbench.Outline.Click
import VhdlWorkbench.Outline.Links
import VhdlWorkbench.Session.Command

/-!
Steps of a session, which give a reply or fail, and leave events on the log and a workspace for the next step.
-/

namespace VhdlWorkbench.Session

open Editor Editor.Act

/-- What changes in a view from outside; what is not given stays. -/
structure ViewChange where
  base : Option String := none
  spans : Option (List Span) := none
  text : Option String := none
  file : Option (Option String) := none
  selection : Option (List Region) := none
  symbols : Option (List (Region × String)) := none
  settings : List (String × Json) := []

/-- What changes in the project from outside; what is not given stays. -/
structure ProjectChange where
  index : Option (List (String × List IndexEntry)) := none
  references : Option (List (String × List IndexEntry)) := none
  folders : Option (List String) := none
  project : Option (Option String) := none
  platform : Option Files.Platform := none

inductive Action where
  | changeView (change : ViewChange)
  | changeProject (change : ProjectChange)
  | changeLayout (layout : WindowLayout)
  | writeFile (name text : String) (changed : Int)
  | pick (index : Int)
  | enter (text : String)
  | command (name : String) (args : Json)
  | windowCommand (name : String) (args : Json)
  /-- Starts a part of the library anew; the part with the pop-ups takes their style. -/
  | reload (withStyle : Bool)
  | hover (place : Int) (overText : Bool)
  | popup (region : Region) (location : Int)
  | followPopup (href : String)
  | inspect (name : String) (region : Region)
  | loaded
  | activated
  | followOutline (href : String)
  | click (name : String) (args : Json)
  | closed
  | isOutline
  | complete (typed : String) (places : List Int)
  | typeInfo (name : String) (region : Option Region)
  | typeInHierarchy (name : String) (text : Option String) (region : Option Region)
  | lookupType (name : String) (kinds : Int)
  | unitName
  | unitAtCursor
  | owner (region : Region)
  | gotoFirst (name : String)
  | moveToDefinition (name : String) (debug : Bool)
  | foldMethods (region : Region)
  | expandToScope (scope : String) (region : Region)
  | closest (written : String) (region : Region)
  | lookupSymbol (name written : String)
  | gotoIndexSymbol (name : String)
  | gotoSymbolInFile (name file : String)
  | printToPanel (text name : String)
  | declarationInFile (file name : String) (kinds : Int)
  | instancesInFile (file unit : String)
  | interfaceInFile (file unit : String)
  | outlineState
  | hierarchyState
  | pendingLoads
  | unitFiles
  | popupStyle

/-- A step of a session, on the view with a number; a view that is not named is the first. -/
structure Step where
  view : Option Nat := none
  action : Action

inductive Reply where
  | nothing
  | text (s : String)
  | texts (list : List String)
  | flag (b : Bool)
  | region (r : Region)
  | declaration (d : Option Declaration)
  | finding (text : Option String) (d : Option Declaration)
  | instances (list : Option (List Design.Instance))
  | interface (i : Option Design.Interface)
  | place (p : Inspect.SymbolPlace)
  | visited (view : Option (Nat × String))
  | proposals (answer : Option Completion.Answer)
  | outline (o : Option OutlineState)
  | hierarchy (h : HierarchyState)
  | unitFiles (lists : List (Option String × List String))
  | popupStyle (style : PopupStyle)

/-- A pattern in its written form, as searches in a text take it. -/
def writtenPattern (written : String) : Except Fault Pattern.Regex :=
  Pattern.orFault (Pattern.Regex.parse { multiline := true } written.toList)

def ViewChange.apply (c : ViewChange) (b : Buffer) : Buffer :=
  { b with
    base := c.base.getD b.base
    spans := c.spans.getD b.spans
    text := (c.text.map fun s => s.toList.toArray).getD b.text
    file := c.file.getD b.file
    selection := c.selection.getD b.selection
    symbols := c.symbols.getD b.symbols
    settings := c.settings.foldl (fun settings (key, value) => Table.put settings key value) b.settings }

def ProjectChange.apply (c : ProjectChange) (w : Workspace) : Workspace :=
  { w with
    index := c.index.getD w.index
    references := c.references.getD w.references
    folders := c.folders.getD w.folders
    project := c.project.getD w.project
    platform := c.platform.getD w.platform }

/-- Does what waits for a file, when its view has been loaded. -/
def finishLoad (id : Nat) : Act Unit := do
  match (← buffer id).file with
  | none => return
  | some file =>
    match (← get).pending.lookup file with
    | none => return
    | some action =>
      match action with
      | .showUnit view unit label => Hierarchy.gotoSymbol view unit label
      | .showName view name => Inspect.gotoFirst view name
      modify fun w => { w with pending := Table.erase w.pending file }

def Action.run (id : Nat) : Action → Act Reply
  | .changeView change => do
    let _ ← buffer id
    changeBuffer id change.apply
    return .nothing
  | .changeProject change => do
    modify change.apply
    return .nothing
  | .changeLayout layout => do
    modify fun w => { w with layout }
    return .nothing
  | .writeFile name text changed => do
    modify fun w => { w with store := w.store.write name ⟨text, changed⟩ }
    return .nothing
  | .pick index => do
    Instantiate.pick index
    return .nothing
  | .enter text => do
    Instantiate.enter text
    return .nothing
  | .command name args => do
    runTextCommand id name args
    return .nothing
  | .windowCommand name args => do
    runWindowCommand name args
    return .nothing
  | .reload withStyle => do
    modify fun w => { w with caches := {} }
    if withStyle then Inspect.loadStyle
    return .nothing
  | .hover place overText => do
    Inspect.hover id place overText
    return .nothing
  | .popup region location => do
    Inspect.showPopup id region location
    return .nothing
  | .followPopup href => do
    Inspect.followLink id href
    return .nothing
  | .inspect name region => do
    let finding ← Inspect.findingAt id name region
    return .finding finding.text finding.declaration
  | .loaded => do
    finishLoad id
    return .nothing
  | .activated => do
    Outline.activated id
    return .nothing
  | .followOutline href => do
    Outline.follow href
    return .nothing
  | .click name args => do
    Outline.click id name args
    return .nothing
  | .closed => do
    Outline.closed
    return .nothing
  | .isOutline => return .flag (Outline.isOutline (← buffer id))
  | .complete typed places => return .proposals (← Completion.query id typed places)
  | .typeInfo name region => return .declaration (some (← Inspect.typeInfo id name region))
  | .typeInHierarchy name text region =>
    return .declaration (some (← Inspect.typeInHierarchy id name text region))
  | .lookupType name kinds => return .declaration (← Inspect.lookupType id name kinds)
  | .unitName => return .text (← Inspect.unitName id)
  | .unitAtCursor => do
    let (kind, name) ← Inspect.unitAtCursor id
    return .texts [kind, name]
  | .owner region => return .text (← Outline.owner id region.a)
  | .gotoFirst name => do
    Inspect.gotoFirst id name
    return .nothing
  | .moveToDefinition name debug => do
    Inspect.moveToDefinition id name debug
    return .nothing
  | .foldMethods region => do
    Outline.foldMethods id region.b
    return .nothing
  | .expandToScope scope region => return .region (← Act.expandToScope id scope region)
  | .closest written region => do
    return .text (← lift (Inspect.closest (← buffer id) (← lift (writtenPattern written)) region.a))
  | .lookupSymbol name written =>
    return .place (← Inspect.lookupSymbol id name (writtenPattern written))
  | .gotoIndexSymbol name => return .visited (← Inspect.gotoIndexSymbol id name)
  | .gotoSymbolInFile name file => do
    Inspect.gotoSymbolInFile id name file
    return .nothing
  | .printToPanel text name => do
    Act.printToPanel text name
    return .nothing
  | .declarationInFile file name kinds =>
    return .declaration (some (← Inspect.declarationInFile file name kinds))
  | .instancesInFile file unit => return .instances (← Inspect.instancesInFile file unit)
  | .interfaceInFile file unit => return .interface (← Inspect.interfaceInFile file unit)
  | .outlineState => return .outline (← get).outline
  | .hierarchyState => return .hierarchy (← get).hierarchy
  | .pendingLoads =>
    return .texts ((((← get).pending).map (·.1)).mergeSort fun x y => x ≤ y)
  | .unitFiles => return .unitFiles (← get).unitFiles
  | .popupStyle => return .popupStyle (← get).popups

/-- Does a step. A view that is named has to exist. -/
def Step.run (s : Step) : Act Reply := do
  match s.view with
  | some id =>
    if (← get).buffers.any (·.id == id) then s.action.run id else throw .noView
  | none => s.action.run 1

/-- What can be seen of two buffers is the same. -/
def looksLike (a b : Buffer) : Bool :=
  a.id == b.id && a.isPanel == b.isPanel && a.name == b.name && a.file == b.file &&
    a.base == b.base && a.text == b.text && a.selection == b.selection && a.folds == b.folds

/-- The outcome of a step: its reply, the events in their order, and the buffers that are new or look
different than before. -/
structure Outcome where
  reply : Except Fault Reply
  log : List Event
  changed : List Buffer

def Step.outcome (s : Step) (w : Workspace) : Outcome × Workspace :=
  let (reply, after) := s.run.run.run { w with questions := 0, log := [] }
  let changed := after.buffers.filter fun b =>
    !(w.buffers.any fun old => old.id == b.id && looksLike old b)
  (⟨reply, after.log.reverse, changed⟩, after)

def runAll : List Step → Workspace → List Outcome
  | [], _ => []
  | s :: rest, w =>
    let (outcome, w) := s.outcome w
    outcome :: runAll rest w

end VhdlWorkbench.Session
