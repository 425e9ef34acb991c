import VhdlWorkbench.Design.Architecture
import VhdlWorkbench.Design.Subprogram
import VhdlWorkbench.Inspect.Unit
import VhdlWorkbench.Outline.Columns
import VhdlWorkbench.Outline.Text

/-!
The panel of the outline, a group of its own at the right end of the window.
-/

namespace VhdlWorkbench.Outline

open Editor Editor.Act

def contentOf (source unit : String) : Except Fault Content := do
  let interface ← Design.interface? source unit
  let instances ← Design.instances? source unit
  let architecture ← Design.architecture? source unit
  let cleaned := Source.withoutComments source
  let functions ← Design.functions cleaned
  let procedures ← Design.procedures cleaned
  let entries (ds : List Declaration) : List Entry := ds.map (·.toEntry)
  let subprograms (list : List Design.Subprogram) : List (String × List Entry) :=
    list.map fun s => (s.name, entries s.arguments)
  let objects (select : Design.Architecture → List Declaration) : List Entry :=
    entries ((architecture.map select).getD [])
  return {
    ports := entries ((interface.map (·.ports)).getD [])
    constants := objects (·.constants)
    signals := objects (·.signals)
    aliases := objects (·.aliases)
    instances := instances.getD []
    procedures := subprograms procedures
    functions := subprograms functions
    processes := Design.processes cleaned }

def sharedKey : String :=
  "navbar-hdl-shared"

def shared : Act Json := do
  return ((← get).windowSettings.lookup sharedKey).getD (.int 0)

/-- A value is the number 0. -/
def isZero : Json → Bool
  | .int n => n == 0
  | .bool b => !b
  | .decimal d => d.toFloat == 0.0
  | _ => false

def wholeValue : Json → Except Fault Int
  | .int n => .ok n
  | .bool b => .ok (if b then 1 else 0)
  | _ => .error .wrongKind

def hasBit (n : Int) (bit : Nat) : Bool :=
  (n / (Nat.pow 2 bit : Nat)) % 2 == 1

/-- The number with the second bit set, by which this outline shares the panel. -/
def withOwnBit (n : Int) : Int :=
  if hasBit n 1 then n else n + 2

/-- The view of another outline that is alone in the last group. -/
def sharedView? (flag : Json) : Act (Option Nat) := do
  let l := (← get).layout
  if isZero flag || l.columns.length < 2 then return none
  match ← viewsInGroup ((l.cells.length : Int) - 1) with
  | [b] => return if Text.endsWith b.name " Hierarchy" then some b.id else none
  | _ => return none

def numberSetting : Json → Except Fault Float
  | .int n => .ok (Float.ofInt n)
  | .bool b => .ok (if b then 1.0 else 0.0)
  | .decimal d => .ok d.toFloat
  | .nonfinite x => .ok x
  | _ => .error .wrongKind

/-- The arrangement with a further group at the right end. -/
def widen (l : WindowLayout) (width : Float) : Except Fault WindowLayout :=
  let count := l.columns.length
  if count = 1 then .error .divisionByZero
  else .ok { l with
    columns := addColumn Float.ofNat width l.columns
    cells := l.cells ++ [[(count : Int) - 1, 0, count, 1]] }

def openGroup (id : Nat) : Act Nat := do
  let width ← lift (numberSetting ((← buffer id).setting "vhdl.navbar_width" (.decimal ⟨false, 2, -1⟩)))
  let l ← lift (widen (← get).layout width)
  setLayout l
  focusGroup ((l.cells.length : Int) - 1)
  let view ← newFile
  setSetting view "tab_size" (.int 2)
  return view

/-- What an outline shows, by the settings of the buffer that it is opened from. -/
def initialSettings (b : Buffer) : List (String × Json) :=
  [("update", .int 1),
   ("show_port", b.setting "vhdl.navbar_show_port" (.bool true)),
   ("show_signal", b.setting "vhdl.navbar_show_signal" (.bool false)),
   ("show_process", b.setting "vhdl.navbar_show_process" (.bool false)),
   ("show_alias", b.setting "vhdl.navbar_show_alias" (.bool false)),
   ("show_const", b.setting "vhdl.navbar_show_const" (.bool false))]

/-- Opens the panel, in the view of another outline or in a view of its own: the view, and who has
shared the panel so far. -/
def openPanel (id : Nat) (flag : Json) : Act (Nat × Json) := do
  let (view, flag) ← match ← sharedView? flag with
    | some view => do
      focusGroup (((← get).layout.cells.length : Int) - 1)
      clearText view
      pure (view, flag)
    | none => do pure (← openGroup id, if isZero flag then flag else .int 0)
  setScratch view
  let settings := initialSettings (← buffer id)
  modify fun w => { w with outline := some { view, settings } }
  return (view, flag)

def current : Act OutlineState := do
  match (← get).outline with
  | some o => return o
  | none => throw (.noEntry "1")

def change (f : OutlineState → OutlineState) : Act Unit :=
  modify fun w => { w with outline := w.outline.map f }

def optionsOf (o : OutlineState) : Options :=
  { settings := o.settings, leaves := o.leaves }

def phantomKey : String :=
  "sv-navbar"

def markup (content : String) : Act String := do
  match (← get).popups.operatorColour with
  | none => throw (.noEntry (Text.quoted "operator"))
  | some colour =>
    let colour := colour.getD "None"
    return "\n<body id=\"sv-navbar\">\n<style>\n    html, body \x7b\n        margin: 0;\n" ++
      "        padding: 0;\n        background-color: transparent;\n    \x7d\n    a \x7b\n" ++
      "        text-decoration: none;\n        color: " ++ colour ++ ";\n    \x7d\n" ++
      "    .content \x7bcolor: " ++ colour ++ ";\x7d\n</style>\n<span class=\"content\">" ++ content ++
      "</span>\n</body>\n"

def markLink (sign : String) (parts : List String) : String :=
  "<a href=\"" ++ Text.join ":" parts ++ "\">" ++ sign ++ "</a>"

def leafMarkup : String :=
  "<a>-</a>"

/-- The mark before an instance: what is below it can be fetched, unfolded or folded. -/
def markFor (b : Buffer) (leaves : List String) (name : String) (r : Region) (number : Nat) :
    Except Fault (Int × String) := do
  let level ← b.indentation r.a
  let below := (b.line r).b + 1
  let levelBelow ← b.indentation below
  let place := (b.line r).a + level * 2
  let at_ := toString r.a
  let number := toString number
  let content :=
    if leaves.contains name then leafMarkup
    else if levelBelow ≤ level then markLink "+" ["type", name, at_, toString level, number]
    else if b.isFolded (.point below) then markLink "+" ["unfold", at_, number]
    else markLink "-" ["fold", at_, number]
  return (place, content)

def instanceMarks (o : OutlineState) : Nat → List Region → Act (List Phantom)
  | _, [] => return []
  | number, r :: rest => do
    let name ← textOf o.view r
    let (place, content) ← lift (markFor (← buffer o.view) o.leaves name r number)
    let content ← markup content
    let others ← instanceMarks o (number + 1) rest
    return { region := .point place, content, hasLinks := true } :: others

def buildMarks : Act Unit := do
  let o ← current
  if o.hasPhantoms then emit (.erasePhantoms o.view phantomKey)
  let b ← buffer o.view
  let instances ← instanceMarks o 0 b.typeRegions
  let leaves ← b.markRegions.mapM fun r => do
    return { region := r, content := ← markup "-", hasLinks := false : Phantom }
  let marks := instances ++ leaves
  if !marks.isEmpty then
    change fun o => { o with phantoms := some marks, hasPhantoms := true }
    emit (.phantoms o.view phantomKey marks)

/-- The element of a list at an index, which counts from the end if it is negative. -/
def indexOf? {α : Type} (list : List α) (index : Int) : Option Nat :=
  let index := if index < 0 then index + list.length else index
  if 0 ≤ index && index < list.length then some index.toNat else none

def changeMark (number : Int) (content : String) : Act Unit := do
  let o ← current
  emit (.erasePhantoms o.view phantomKey)
  change fun o => { o with hasPhantoms := true }
  let content ← markup content
  match o.phantoms with
  | none => throw (.noEntry (Text.quoted "phantom"))
  | some marks =>
    match indexOf? marks number with
    | none => throw .noElement
    | some n =>
      let marks := marks.modify n fun mark => { mark with content }
      change fun o => { o with phantoms := some marks }
      emit (.phantoms o.view phantomKey marks)

def outlineSyntax : String :=
  "Packages/Smart VHDL/navbar.sublime-syntax"

def showUnit (id : Nat) (unit : String) (content : Content) : Act Unit := do
  let flag ← shared
  let (view, flag) ← match (← get).outline with
    | none => openPanel id flag
    | some o => do
      clearText o.view
      pure (o.view, flag)
  if !Text.contains (← scopeAt view 0) "vhdl" then setSyntax view outlineSyntax
  setWindowSetting sharedKey (.int (withOwnBit (← lift (wholeValue flag))))
  let file := (← buffer id).file
  change fun o => { o with subject := some (id, file), leaves := [] }
  let text ← lift (content.text (optionsOf (← current)) 1)
  setName view (unit ++ " Hierarchy")
  insertPlain view (unit ++ "\n" ++ Text.times unit.length "-" ++ "\n" ++ text)
  buildMarks
  note (.buffer view) "fold_by_level" (.object [("level", .int 2)])
  moveCursor view 0

def showOutline (id : Nat) : Act Unit := do
  let (_, unit) ← Inspect.unitAtCursor id
  if unit.isEmpty then return
  let content ← lift (contentOf (← contents id) unit)
  showUnit id unit content

def showCommand (id : Nat) : Act Unit := do
  note (.buffer id) "vhdl_show_navbar" .null
  showOutline id

end VhdlWorkbench.Outline
