import VhdlWorkbench.Number.Shortest
import VhdlWorkbench.Outline.Panel

/-!
Opening and closing the outline, locking it, and keeping it up to date when another view is activated.
-/

namespace VhdlWorkbench.Outline

open Editor Editor.Act

/-- A command for the outline of the other language that the editor may have. -/
def noteOther (cmd : String) : Act Unit :=
  note .window "verilog_toggle_navbar" (.object [("cmd", .text cmd)])

def narrow (l : WindowLayout) : Except Fault (Option WindowLayout) :=
  match l.columns.reverse with
  | last :: previous :: before =>
    let columns := (previous :: before).reverse
    if before.isEmpty then .ok none
    else if l.cells.isEmpty then .error .noElement
    else
      let step := (last - previous) / (Float.ofNat columns.length - Float.ofNat 1)
      .ok (some { l with columns := stretch Float.ofNat step columns, cells := l.cells.dropLast })
  | _ => .error .noElement

/-- Closes the outline; a plain toggle closes its view too. -/
def close (o : OutlineState) (cmd : Json) : Act Unit := do
  let back ← match (← get).active with
    | some id => if id == o.view then do pure (← lift (o.demandSubject)).1 else pure id
    | none => do pure (← lift (o.demandSubject)).1
  setWindowSetting sharedKey (.int 0)
  modify fun w => { w with outline := none }
  noteOther "disable"
  if cmd == .text "disable" then return
  if cmd == .text "toggle" then
    focus o.view
    setScratch o.view
    note .window "close_file" .null
  match ← lift (narrow (← get).layout) with
  | none => return
  | some l =>
    setLayout l
    focus back

def toggle (cmd : Json) : Act Unit := do
  let w ← get
  let isOpen := cmd == .text "open"
  let flag ← shared
  match w.outline, isOpen with
  | some o, false => close o cmd
  | _, _ =>
    if !isZero flag && !isOpen then
      setWindowSetting sharedKey (.int 0)
      noteOther "close"
    else if isOpen || cmd == .text "toggle" then
      match w.active with
      | none => return
      | some id =>
        if Text.contains (← scopeAt id 0) "systemverilog" then
          note (.buffer id) "verilog_show_navbar" .null
        else showCommand id

def updateSetting (o : OutlineState) : Json :=
  (o.settings.lookup "update").getD .null

mutual

def innerText : Json → String
  | .null => "None"
  | .bool b => if b then "True" else "False"
  | .int n => toString n
  | .decimal d => floatText d.toFloat
  | .nonfinite x => floatText x
  | .text s => Text.quoted s
  | .list items => "[" ++ String.intercalate ", " (itemTexts items) ++ "]"
  | .object members => "\x7b" ++ String.intercalate ", " (memberTexts members) ++ "\x7d"

def itemTexts : List Json → List String
  | [] => []
  | item :: rest => innerText item :: itemTexts rest

def memberTexts : List (String × Json) → List String
  | [] => []
  | (key, value) :: rest => (Text.quoted key ++ ": " ++ innerText value) :: memberTexts rest

end

def valueText : Json → String
  | .text s => s
  | value => innerText value

def toggleLock : Act Unit := do
  match (← get).outline with
  | none => return
  | some o =>
    let set (value : Json) : Act Unit :=
      change fun o => { o with settings := Table.put o.settings "update" value }
    if isZero (updateSetting o) then
      let wanted := (← buffer o.view).setting "vhdl.navbar_update" (.int 15)
      let value := if isZero wanted then .int 15 else wanted
      set value
      status ("VHDL NavBar unlocked (" ++ valueText value ++ ")")
    else
      set (.int 0)
      status "VHDL NavBar locked "

def activated (id : Nat) : Act Unit := do
  match (← get).outline with
  | none => return
  | some o =>
    let scope ← scopeAt id 0
    let (_, file) ← lift (o.demandSubject)
    let isCode := Text.contains scope "source.vhdl"
    if file == (← buffer id).file then
      if Text.contains (← scopeAt o.view 0) "vhdl" then return
      if isCode then showCommand id
    if isZero (updateSetting o) then return
    if isCode then showCommand id
    else if Text.contains scope "source.systemverilog" then
      if !hasBit (← lift (wholeValue (← shared))) 0 then
        note (.buffer id) "verilog_show_navbar" .null

def closed : Act Unit := do
  note .window "vhdl_toggle_navbar" (.object [("cmd", .text "close")])
  toggle (.text "close")
  noteOther "close"

def isOutline (b : Buffer) : Bool :=
  b.setting "syntax" .null == .text outlineSyntax

end VhdlWorkbench.Outline
