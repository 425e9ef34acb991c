import VhdlWorkbench.Hierarchy.Instances
import VhdlWorkbench.Instantiate.Choose
import VhdlWorkbench.Layout.Command
import VhdlWorkbench.Outline.Window

/-!
Commands by their names and arguments.
-/

namespace VhdlWorkbench.Session

open Editor Editor.Act

/-- The arguments of a command: those that it needs have to be there, and no others than those that it
needs or allows. -/
def arguments (needed allowed : List String) (args : Json) : Except Fault (List (String × Json)) :=
  match args with
  | .null => if needed.isEmpty then .ok [] else .error .wrongKind
  | .object members =>
    if needed.all (fun key => (members.lookup key).isSome) &&
        members.all (fun (key, _) => needed.contains key || allowed.contains key) then .ok members
    else .error .wrongKind
  | _ => .error .wrongKind

def demandEntry (j : Json) (key : String) : Except Fault Json :=
  match j with
  | .object members =>
    match members.lookup key with
    | some value => .ok value
    | none => .error (.noEntry (Text.quoted key))
  | _ => .error .wrongKind

def demandText : Json → Except Fault String
  | .text s => .ok s
  | _ => .error .wrongKind

/-- The commands of this library on a text. -/
inductive TextCommand where
  | align
  | chooseFile
  | instantiateUnit (args : Json)
  | insertInstance (args : Json)
  | showHierarchy
  | gotoDefinition
  | findInstances
  | showOutline

def TextCommand.ofName? (name : String) (args : Json) : Except Fault (Option TextCommand) := do
  let plain (command : TextCommand) : Except Fault (Option TextCommand) := do
    let _ ← arguments [] [] args
    return some command
  let withArgs (command : Json → TextCommand) : Except Fault (Option TextCommand) := do
    return ((← arguments ["args"] [] args).lookup "args").map command
  match name with
  | "vhdl_align" =>
    let _ ← arguments [] ["cmd"] args
    return some .align
  | "vhdl_module_inst" => plain .chooseFile
  | "vhdl_do_module_parse" => withArgs .instantiateUnit
  | "vhdl_do_module_inst" => withArgs .insertInstance
  | "vhdl_show_hierarchy" => plain .showHierarchy
  | "vhdl_hierarchy_goto_definition" => plain .gotoDefinition
  | "vhdl_find_instance" => plain .findInstances
  | "vhdl_show_navbar" => plain .showOutline
  | _ => return none

def TextCommand.run (id : Nat) : TextCommand → Act Unit
  | .align => Layout.alignCommand id
  | .chooseFile => Instantiate.chooseFile id
  | .instantiateUnit args => do
    let file ← lift (demandEntry args "fname")
    let unit ← lift (demandEntry args "mname")
    Instantiate.instantiateUnit id (← lift (demandText file)) (← lift (demandText unit))
  | .insertInstance args => do
    Instantiate.insertInstance id (← lift (Instantiate.Request.ofJson args))
  | .showHierarchy => Hierarchy.showHierarchy id
  | .gotoDefinition => Hierarchy.gotoDefinition id
  | .findInstances => Hierarchy.findInstances id
  | .showOutline => Outline.showOutline id

def editorCommand (name : String) (args : Json) (b : Buffer) : Buffer :=
  let text (key : String) : Option String := (args.get? key).bind Json.text?
  match name with
  | "insert_snippet" => b.type ((text "x").getD ((text "contents").getD ""))
  | "append" => b.insert b.size ((text "characters").getD "")
  | "select_all" => { b with selection := [⟨0, b.size⟩] }
  | "right_delete" => b.deleteSelection
  | _ => b

def runTextCommand (id : Nat) (name : String) (args : Json) : Act Unit := do
  let _ ← buffer id
  note (.buffer id) name args
  match ← lift (TextCommand.ofName? name args) with
  | some command => command.run id
  | none => changeBuffer id (editorCommand name args)

def runWindowCommand (name : String) (args : Json) : Act Unit := do
  note .window name args
  match name with
  | "vhdl_toggle_navbar" =>
    Outline.toggle (((← lift (arguments [] ["cmd"] args)).lookup "cmd").getD (.text "toggle"))
  | "vhdl_toggle_lock_navbar" =>
    let _ ← lift (arguments [] [] args)
    Outline.toggleLock
  | _ => return

end VhdlWorkbench.Session
